/-
How locals are numbered.

Compiled code keeps parameters and registers in the first locals and the block number in the one
after them.  Their numbers come from counts of 64 bits that are cut to 32.  Validation limits
the parameters and the registers that instructions name, but not the locals that a function
declares, so whether all of it stays in its width depends on these alone.  Where it does, the
block number has a local of its own.

* `Function.CountsExactly`: no step of the arithmetic leaves its width;
* `Function.countsExactly_iff`: when that is so;
* `Function.CountsExactly.separatesLocals`: what it makes sure of;
* `Program.separatesLocals_of_compile`: the locals of compiled functions.
-/
import MutationAnalysis.Proofs.Lowering.WellFormed

namespace MutationAnalysis

open Wasm Lowering

namespace Function

variable {f : Function}

/-- No step of the arithmetic that numbers the locals of a function leaves its width: neither the
sum of parameters and locals, nor the difference between all registers and the parameters, nor
either of the two as a number of 32 bits, nor the local that is added for the block number. -/
structure CountsExactly (f : Function) : Prop where
  sum_lt : f.numParams.toNat + f.numLocals.toNat < 2 ^ 64
  numParams_le : f.numParams ≤ f.registerCount
  count_lt : f.registerCount.toNat < 2 ^ 32
  others_lt : (f.registerCount - f.numParams).toNat < 2 ^ 32
  extra_lt : (f.registerCount - f.numParams).toUInt32.toNat + 1 < 2 ^ 32

/-- Of so many locals, each parameter and each register that an instruction names has one, and
the block number has another. -/
structure SeparatesLocals (f : Function) (locals : Nat) : Prop where
  param : ∀ k < f.numParams.toNat, k < locals ∧ k ≠ counterLocal f
  register : ∀ i ∈ f.instructions, ∀ r ∈ i.registers, r.toNat < locals ∧ r.toNat ≠ counterLocal f
  counter : counterLocal f < locals

theorem numParams_le_registersNeeded (f : Function) : f.numParams.toNat ≤ f.registersNeeded := by
  rw [registersNeeded]
  omega

/-- The registers other than the parameters, if parameters and locals add up in 64 bits. -/
theorem others_toNat (h : f.numParams.toNat + f.numLocals.toNat < 2 ^ 64) :
    (f.registerCount - f.numParams).toNat = f.registersNeeded - f.numParams.toNat := by
  have hle : f.numParams ≤ f.registerCount := by
    rw [UInt64.le_iff_toNat_le, registerCount_toNat_of_lt h]
    exact f.numParams_le_registersNeeded
  rw [UInt64.toNat_sub_of_le _ _ hle, registerCount_toNat_of_lt h]

namespace CountsExactly

variable (h : f.CountsExactly)

include h

theorem counterLocal_eq : counterLocal f = f.registersNeeded := by
  have hcount := h.count_lt
  rw [counterLocal, UInt64.toNat_toUInt32, Nat.mod_eq_of_lt hcount,
    registerCount_toNat_of_lt h.sum_lt]

theorem extraLocals_eq : extraLocals f = f.registersNeeded - f.numParams.toNat + 1 := by
  have hextra := h.extra_lt
  have hone : (1 : UInt32).toNat = 1 := rfl
  rw [extraLocals, UInt32.toNat_add, hone, Nat.mod_eq_of_lt hextra, UInt64.toNat_toUInt32,
    Nat.mod_eq_of_lt h.others_lt, others_toNat h.sum_lt]

/-- The block number has the local after those of all parameters and
registers, and it is the last. -/
theorem separatesLocals : f.SeparatesLocals (f.numParams.toNat + extraLocals f) := by
  have hparams := f.numParams_le_registersNeeded
  have hlast : f.numParams.toNat + extraLocals f = counterLocal f + 1 := by
    rw [h.extraLocals_eq, h.counterLocal_eq]
    omega
  rw [hlast, h.counterLocal_eq]
  refine ⟨fun k hk => ?_, fun i hi r hr => ?_, ?_⟩
  · rw [h.counterLocal_eq]
    omega
  · have hused := lt_usedRegisters hi hr
    have hle : f.usedRegisters ≤ f.registersNeeded := Nat.le_max_left _ _
    rw [h.counterLocal_eq]
    omega
  · rw [h.counterLocal_eq]
    omega

end CountsExactly

/-- The arithmetic of a function with few parameters is exact if and only if its locals leave room
for the block number, and its parameters and locals together fit in 32 bits. -/
theorem countsExactly_iff (hparams : f.numParams.toNat ≤ 255) : f.CountsExactly ↔
    f.numLocals.toNat + 1 < 2 ^ 32 ∧ f.numParams.toNat + f.numLocals.toNat < 2 ^ 32 := by
  have hused := f.usedRegisters_le
  have hneeded : f.registersNeeded = max f.usedRegisters (f.numParams.toNat + f.numLocals.toNat) :=
    rfl
  constructor
  · intro h
    have hcount := h.count_lt
    have hextra := h.extra_lt
    rw [registerCount_toNat_of_lt h.sum_lt] at hcount
    rw [UInt64.toNat_toUInt32, Nat.mod_eq_of_lt h.others_lt, others_toNat h.sum_lt] at hextra
    omega
  · rintro ⟨hlocals, hsum⟩
    have hsum' : f.numParams.toNat + f.numLocals.toNat < 2 ^ 64 := by omega
    have hcount := registerCount_toNat_of_lt hsum'
    have hothers := others_toNat hsum'
    refine ⟨hsum', ?_, ?_, ?_, ?_⟩
    · rw [UInt64.le_iff_toNat_le, hcount]
      exact f.numParams_le_registersNeeded
    · rw [hcount]
      omega
    · rw [hothers]
      omega
    · rw [UInt64.toNat_toUInt32, hothers]
      omega

end Function

/-- What an accepted program is compiled to declares the locals of its functions, and their
numbering is exact for the functions that declare few enough.  Then the block number of a function
has a local of its own, and so has each of its parameters and registers. -/
theorem Program.separatesLocals_of_compile {p : Program} (hp : p.validate = .ok ())
    (moduleId : String) (probed : Bool) (minPages : Nat) :
    ∃ c, p.compile moduleId probed minPages = .ok c ∧
      ∀ (i : Nat) (f : Function), p.functions[i]? = some f → ∃ body type,
        c.code.functions[i]? = some body ∧ c.code.types[body.type]? = some type ∧
        (f.CountsExactly ↔
          f.numLocals.toNat + 1 < 2 ^ 32 ∧ f.numParams.toNat + f.numLocals.toNat < 2 ^ 32) ∧
        (f.CountsExactly → f.SeparatesLocals (type.params + body.locals)) := by
  have hvalid := isValid_of_validate hp
  obtain ⟨c, hc⟩ := exists_compile hvalid moduleId probed minPages
  obtain ⟨l, hcomes⟩ := comes_of_compile hc
  refine ⟨c, hc, fun i f hf => ?_⟩
  obtain ⟨codes, -, hbody⟩ := hcomes.body hf
  have hmem := List.mem_of_getElem? hf
  have htype : c.code.types[l.typeIndex (funcType f.signature)]? = some (funcType f.signature) := by
    rw [hcomes.types]
    exact Layout.Describes.types_typeIndex (hcomes.describes.funcType_mem hmem)
  exact ⟨_, _, hbody, htype, Function.countsExactly_iff (hvalid.functions f hmem).numParams_le,
    Function.CountsExactly.separatesLocals⟩

/-! ### Too many locals -/

/-- A program with a function that adds one to its parameter and returns the sum in another block.
It declares so many locals that their number and that of its registers do not fit in 32 bits. -/
def successor : Program where
  functions := [{
    name := "successor", numParams := 1, numLocals := 4294967296, returnType := .int
    blocks := [
      ⟨[⟨.add, some 1, [.register 0, .immediate (.int 1)], none⟩,
        ⟨.branch, none, [.block 1], none⟩]⟩,
      ⟨[.returning (some 1)]⟩] }]
  declarations := []
  constructors := []
  version := 1

/-- A program with two locals has room for its block number after them. -/
theorem countdown_separatesLocals : ∃ c body type f, countdown.compile "m" true 1 = .ok c ∧
    countdown.functions[0]? = some f ∧ c.code.functions[0]? = some body ∧
    c.code.types[body.type]? = some type ∧ f.CountsExactly ∧
    f.SeparatesLocals (type.params + body.locals) := by
  have hvalid : countdown.validate = .ok () := by decide
  obtain ⟨c, hc, hlocals⟩ := Program.separatesLocals_of_compile hvalid "m" true 1
  obtain ⟨body, type, hbody, htype, hiff, hseparates⟩ := hlocals 0 _ rfl
  have hexact := hiff.mpr (by decide)
  exact ⟨c, body, type, _, hc, rfl, hbody, htype, hexact, hseparates hexact⟩

/-- The program is accepted, and the block number of its function is kept
in the register of the sum. -/
theorem successor_overlaps : successor.validate = .ok () ∧ ∃ f, successor.functions[0]? = some f ∧
    ¬ f.CountsExactly ∧ counterLocal f = 1 ∧ (∃ i ∈ f.instructions, 1 ∈ i.registers) ∧
    ¬ f.SeparatesLocals (f.numParams.toNat + extraLocals f) := by
  have hnamed : ∀ f, successor.functions[0]? = some f → ∃ i ∈ f.instructions, 1 ∈ i.registers := by
    rintro f hf
    obtain rfl := Option.some.inj hf
    exact ⟨_, List.mem_cons_self, by decide⟩
  refine ⟨by decide, _, rfl, fun h => absurd h.count_lt (by decide),
    by decide, hnamed _ rfl, fun h => ?_⟩
  obtain ⟨i, hi, hr⟩ := hnamed _ rfl
  exact (h.register i hi 1 hr).2 (by decide)

end MutationAnalysis
