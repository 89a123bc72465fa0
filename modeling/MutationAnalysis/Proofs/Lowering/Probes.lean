/-
What the probes of compiled code are called with.

The probes are the first functions of a module.  Compiled code calls them only with the sum
of the function's index and the module's offset: the functions that a program defines come
after them, so none of its own calls is of a probe.  This holds of all compiled code,
whether its program is valid or not.

* `passesNumber_of_instructionCode`: the code of an instruction passes the
  sum to probes and nothing else;
* `BlocksEmit.passesNumber_bodyOf`: so does the body of a function;
* `exists_code_bodyOf`: and it begins with the sum.
-/
import MutationAnalysis.Proofs.Lowering.Module
import MutationAnalysis.Proofs.Wasm.Frames
import MutationAnalysis.Proofs.Wasm.Typing

namespace MutationAnalysis.Lowering

open Wasm

variable {l : Layout}

theorem probes_le_of_functionIndex? {name : String} {index : Nat}
    (h : l.functionIndex? name = some index) : l.probes ≤ index := by
  obtain ⟨i, -, rfl⟩ := Option.map_eq_some_iff.mp h
  exact Nat.le_add_right _ _

/-! ### Operations that call no probe -/

section

variable {ops : List Op} {functions : Nat}

theorem spares_of_operandOp {a : Operand} {o : Op} (h : operandOp a = .ok o) :
    o.spares functions = true := by
  cases a with
  | register | immediate =>
    obtain rfl := Except.ok.inj h
    rfl
  | block | symbol => cases h

theorem spares_of_operandOps {operands : List Operand} (h : operandOps operands = .ok ops) :
    ∀ o ∈ ops, o.spares functions = true := by
  intro o ho
  obtain ⟨a, -, ha⟩ := exists_left_of_mem (mapM_eq_ok.mp h) ho
  exact spares_of_operandOp ha

theorem spares_resultOp (dest : Option Register) : (resultOp dest).spares functions = true := by
  cases dest <;> rfl

theorem spares_givenOps (signature : Signature) (dest : Option Register) :
    ∀ o ∈ givenOps signature dest, o.spares functions = true := by
  unfold givenOps
  split
  · exact List.forall_mem_singleton.mpr (spares_resultOp dest)
  · exact List.forall_mem_nil _

/-- The functions that are called directly are defined in the module. -/
theorem spares_of_callOps {i : Instruction} (h : callOps l i = .ok ops) :
    ∀ o ∈ ops, o.spares l.probes = true := by
  unfold callOps at h
  split at h
  · cases h
  · obtain ⟨arguments, harguments, h⟩ := bind_eq_ok.mp h
    split at h
    · cases h
    · rename_i signature _
      have hcall : ∀ {call : List Op}, (∀ o ∈ call, o.spares l.probes = true) →
          ∀ o ∈ arguments ++ call ++ givenOps signature i.dest, o.spares l.probes = true :=
        fun hcall => List.forall_mem_append.mpr ⟨List.forall_mem_append.mpr
          ⟨spares_of_operandOps harguments, hcall⟩, spares_givenOps signature i.dest⟩
      dsimp only at h
      split at h
      · rename_i index hindex
        obtain rfl := Except.ok.inj h
        exact hcall (by simpa [Op.spares] using probes_le_of_functionIndex? hindex)
      · split at h
        · obtain rfl := Except.ok.inj h
          exact hcall (by simp [Op.spares])
        · cases h

theorem spares_of_callCellOps {i : Instruction} (h : callCellOps l i = .ok ops) :
    ∀ o ∈ ops, o.spares functions = true := by
  unfold callCellOps at h
  split at h
  · cases h
  · obtain ⟨arguments, harguments, h⟩ := bind_eq_ok.mp h
    split at h
    · cases h
    · obtain rfl := Except.ok.inj h
      rw [List.forall_mem_append, List.forall_mem_append]
      exact ⟨⟨spares_of_operandOps harguments, by simp [Op.spares]⟩, by simp [Op.spares]⟩

end

/-! ### Code of functions -/

section

variable {index : Nat}

/-- Code of a function that calls a probe only with the sum of the
function's index and the offset. -/
abbrev PassesNumber (l : Layout) (index : Nat) (c : Code) : Prop :=
  c.PassesSums l.probes (UInt32.ofNat index) l.offsetGlobal

theorem passesNumber_probeOps {probe : Nat} (hprobe : probe < 2) :
    PassesNumber l index (.ofOps (probeOps l index probe)) := by
  unfold probeOps
  split
  · rename_i hinstrumented
    exact .call (by rwa [Layout.probes, if_pos hinstrumented]) .done
  · exact .done

theorem passesNumber_of_branchIfCode {s : Site} {i : Instruction} {c : Code}
    (h : branchIfCode s i = .ok c) : PassesNumber l index c := by
  have hjump : ∀ target : UInt32,
      PassesNumber l index (.ofOps (jumpOps s.counter target (s.depth + 1))) := fun target =>
    Code.passesSums_ofOps (by simp [jumpOps, Op.spares])
  unfold branchIfCode at h
  split at h
  · cases h
  · obtain ⟨condition, hcondition, h⟩ := bind_eq_ok.mp h
    split at h
    · obtain rfl := Except.ok.inj h
      exact .op (spares_of_operandOp hcondition) (.ifElse (hjump _) (hjump _) .done)
    · cases h

theorem passesNumber_of_instructionCode {s : Site} {i : Instruction} {c : Code}
    (h : instructionCode l s i = .ok c) : PassesNumber l s.function c := by
  -- most instructions have their operands, and after them operations that are no calls
  have hplain : ∀ {operands after : List Op}, operandOps i.operands = .ok operands →
      (∀ o ∈ after, o.spares l.probes = true) → ∀ o ∈ operands ++ after, o.spares l.probes = true :=
    fun hoperands hafter => List.forall_mem_append.mpr ⟨spares_of_operandOps hoperands, hafter⟩
  have hresult : ∀ o ∈ [resultOp i.dest], o.spares l.probes = true :=
    List.forall_mem_singleton.mpr (spares_resultOp i.dest)
  unfold instructionCode at h
  split at h
  case h_1 =>
    obtain ⟨operands, hoperands, h⟩ := bind_eq_ok.mp h
    obtain rfl := Except.ok.inj h
    exact .op rfl (Code.passesSums_ofOps
      (hplain hoperands (List.forall_mem_cons.mpr ⟨rfl, hresult⟩)))
  case h_2 | h_5 =>
    obtain ⟨operands, hoperands, h⟩ := bind_eq_ok.mp h
    obtain rfl := Except.ok.inj h
    exact Code.passesSums_ofOps (hplain hoperands (List.forall_mem_cons.mpr ⟨rfl, hresult⟩))
  case h_3 | h_4 =>
    obtain ⟨operands, hoperands, h⟩ := bind_eq_ok.mp h
    obtain rfl := Except.ok.inj h
    exact Code.passesSums_ofOps (hplain hoperands hresult)
  case h_6 =>
    obtain ⟨operands, hoperands, h⟩ := bind_eq_ok.mp h
    obtain rfl := Except.ok.inj h
    exact Code.passesSums_ofOps (hplain hoperands (List.forall_mem_singleton.mpr rfl))
  case h_7 =>
    split at h
    · obtain rfl := Except.ok.inj h
      exact Code.passesSums_ofOps (by simp [jumpOps, Op.spares])
    · cases h
  case h_8 => exact passesNumber_of_branchIfCode h
  case h_9 =>
    obtain ⟨ops, hops, h⟩ := bind_eq_ok.mp h
    obtain rfl := Except.ok.inj h
    exact Code.passesSums_ofOps (spares_of_callOps hops)
  case h_10 =>
    obtain ⟨ops, hops, h⟩ := bind_eq_ok.mp h
    obtain rfl := Except.ok.inj h
    exact Code.passesSums_ofOps (spares_of_callCellOps hops)
  case h_11 =>
    obtain ⟨operands, hoperands, h⟩ := bind_eq_ok.mp h
    obtain rfl := Except.ok.inj h
    rw [Code.ofOps_append, Code.ofOps_append]
    exact ((Code.passesSums_ofOps (spares_of_operandOps hoperands)).append
      (passesNumber_probeOps (by decide))).append (.op rfl .done)
  case h_12 =>
    obtain rfl := Except.ok.inj h
    exact .op rfl .done
  case h_13 =>
    obtain ⟨operands, hoperands, h⟩ := bind_eq_ok.mp h
    obtain rfl := Except.ok.inj h
    rw [List.append_assoc]
    refine Code.passesSums_ofOps (hplain hoperands (List.forall_mem_append.mpr ⟨?_, hresult⟩))
    rw [List.forall_mem_map]
    exact fun _ _ => rfl

theorem passesNumber_of_instructionsCode {s : Site} {instructions : List Instruction} {c : Code}
    (h : instructionsCode l s instructions = .ok c) : PassesNumber l s.function c := by
  induction instructions generalizing c with
  | nil =>
    obtain rfl := Except.ok.inj h
    exact .done
  | cons i rest ih =>
    obtain ⟨first, others, hfirst, hothers, rfl⟩ := instructionsCode_cons.mp h
    exact (passesNumber_of_instructionCode hfirst).append (ih hothers)

theorem passesNumber_nest {inner : Code} {codes : List Code} (hinner : PassesNumber l index inner)
    (hcodes : ∀ c ∈ codes, PassesNumber l index c) : PassesNumber l index (nest inner codes) := by
  induction codes generalizing inner with
  | nil => exact hinner
  | cons c rest ih =>
    rw [List.forall_mem_cons] at hcodes
    exact ih (.block hinner hcodes.1) hcodes.2

theorem BlocksEmit.passesNumber {counter : Nat} {blocks : List Block} {codes : List Code}
    (h : BlocksEmit l index counter blocks codes) : ∀ c ∈ codes, PassesNumber l index c := by
  induction h with
  | nil => exact List.forall_mem_nil _
  | cons hc _ ih => exact List.forall_mem_cons.mpr ⟨passesNumber_of_instructionsCode hc, ih⟩

/-- The code of a function calls a probe only with the sum of the
function's index and the offset. -/
theorem BlocksEmit.passesNumber_bodyOf {counter : Nat} {f : Function} {codes : List Code}
    (h : BlocksEmit l index counter f.blocks codes) :
    PassesNumber l index (bodyOf l index f codes).code :=
  (passesNumber_probeOps (by decide)).append (.loop
    (passesNumber_nest (Code.passesSums_ofOps (by simp [Op.spares])) h.passesNumber)
    (.op rfl .done))

/-- A function with probes starts with what its first probe is called with. -/
theorem exists_code_bodyOf (h : l.isInstrumented = true) (index : Nat) (f : Function)
    (codes : List Code) :
    ∃ rest, (bodyOf l index f codes).code = .op (.const (UInt32.ofNat index))
      (.op (.globalGet l.offsetGlobal) (.op (.binary .add) (.op (.call enterProbe) rest))) := by
  rw [bodyOf, probeOps, if_pos h]
  exact ⟨_, rfl⟩

end

end MutationAnalysis.Lowering
