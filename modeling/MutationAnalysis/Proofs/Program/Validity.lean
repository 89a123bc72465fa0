/-
What is known of a valid program.

`Function.IsValid` and `Program.IsValid` collect what is known of a function and of a program that
validation accepts and that the steps of a run need: of a block, also of what is left of it after
some of its instructions (`IsBlockTail`).

* `Program.isValid_of_validate`: an accepted program has distinct
  function names and valid functions;
* `Function.registerCount_toNat`: where the registers of a function fit in 32 bits,
  counting them in 64 bits counts them.
-/
import MutationAnalysis.Proofs.Program.Acceptance
import Mathlib.Algebra.Order.Ring.Int

namespace MutationAnalysis

/-- Instructions that a block may have left: all of them fit, and the last one ends the block. -/
structure IsBlockTail (p : Program) (f : Function) (instructions : List Instruction) : Prop where
  fits : ∀ i ∈ instructions, i.Fits p f
  terminated : ∃ i, instructions.getLast? = some i ∧ i.opcode.isTerminator = true

namespace IsBlockTail

variable {p : Program} {f : Function} {i : Instruction} {rest : List Instruction}

theorem head (h : IsBlockTail p f (i :: rest)) : i.Fits p f :=
  h.fits i (by simp)

/-- Something follows an instruction that does not end its block. -/
theorem tail (h : IsBlockTail p f (i :: rest)) (hi : i.opcode.isTerminator = false) :
    IsBlockTail p f rest := by
  refine ⟨fun j hj => h.fits j (by simp [hj]), ?_⟩
  obtain ⟨last, hlast, ht⟩ := h.terminated
  cases rest with
  | nil =>
    obtain rfl : i = last := by simpa using hlast
    rw [hi] at ht
    exact absurd ht (by simp)
  | cons j rest => exact ⟨last, by rwa [List.getLast?_cons_cons] at hlast, ht⟩

theorem ne_nil {instructions : List Instruction} (h : IsBlockTail p f instructions) :
    instructions ≠ [] := by
  rintro rfl
  obtain ⟨i, hi, -⟩ := h.terminated
  exact absurd hi (by simp)

end IsBlockTail

theorem Block.EndsOnce.isBlockTail {p : Program} {f : Function} {b : Block} (h : b.EndsOnce)
    (hfits : ∀ i ∈ b.instructions, i.Fits p f) : IsBlockTail p f b.instructions := by
  obtain ⟨last, hlast, hend, -⟩ := Block.endsOnce_iff.mp h
  exact ⟨hfits, last, hlast, hend⟩

namespace Function

/-- What validation makes sure of in a function. -/
structure IsValid (p : Program) (f : Function) : Prop where
  numParams_le : f.numParams.toNat ≤ 255
  blocks_ne_nil : f.blocks ≠ []
  blocks : ∀ b ∈ f.blocks, IsBlockTail p f b.instructions

theorem IsValid.fits {p : Program} {f : Function} (h : f.IsValid p) {i : Instruction}
    (hi : i ∈ f.instructions) : i.Fits p f := by
  obtain ⟨b, hb, hi⟩ := List.mem_flatMap.mp hi
  exact (h.blocks b hb).fits i hi

theorem IsAccepted.isValid {p : Program} {f : Function} (h : f.IsAccepted p) : f.IsValid p :=
  ⟨h.numParams_le, h.blocks_ne_nil, fun b hb => (h.endsOnce b hb).isBlockTail fun i hi =>
    h.fits i (List.mem_flatMap.mpr ⟨b, hb, hi⟩)⟩

end Function

namespace Program

/-- What validation makes sure of in a program. -/
structure IsValid (p : Program) : Prop where
  names_nodup : (p.functions.map (·.name)).Nodup
  functions : ∀ f ∈ p.functions, f.IsValid p
  constructors : ∀ name ∈ p.constructors, ∃ f, p.function? name = some f ∧ f.numParams = 0

/-- A valid program that names no cells calls through none. -/
theorem IsValid.ne_callIndirect {p : Program} (h : p.IsValid) (hcells : p.cells = []) :
    ∀ i ∈ p.instructions, i.opcode ≠ .callIndirect := by
  intro i hi hop
  obtain ⟨f, hf, hmem⟩ := List.mem_flatMap.mp hi
  obtain ⟨b, hb, hmem⟩ := List.mem_flatMap.mp hmem
  have hcallee : ∃ cell, i.callee = some cell := by
    cases ((h.functions f hf).blocks b hb).fits i hmem with
    | callIndirect => exact ⟨_, rfl⟩
    | binary hbinary =>
      cases hop
      cases hbinary
    | unary hunary => rcases hunary with rfl | rfl | rfl | rfl <;> cases hop
    | branch hbranch | branchIf hbranch | unreachable hbranch => rw [hop] at hbranch; cases hbranch
    | loadConst | store | call | retNothing | retValue => cases hop
  obtain ⟨cell, hcell⟩ := hcallee
  have hname : cell ∈ p.cells := mem_cells.mpr ⟨i, hi, hop, hcell⟩
  rw [hcells] at hname
  cases hname

theorem isValid_of_validate {p : Program} (h : p.validate = .ok ()) : p.IsValid := by
  obtain ⟨hnames, hfunctions, hconstructors⟩ := validate_eq_ok.mp h
  exact ⟨hnames, fun f hf => (hfunctions f hf).isValid, hconstructors⟩

end Program

namespace Function

/-- How many registers a function needs: its parameters and locals, and those
that its instructions name. -/
def registersNeeded (f : Function) : Nat :=
  max f.usedRegisters (f.numParams.toNat + f.numLocals.toNat)

theorem le_foldl_max_succ {registers : List Register} {r : Register} (h : r ∈ registers)
    (n : Nat) : r.toNat < registers.foldl (fun n r => max n (r.toNat + 1)) n := by
  have grows : ∀ (l : List Register) (n : Nat),
      n ≤ l.foldl (fun n r => max n (r.toNat + 1)) n := by
    intro l
    induction l with
    | nil => simp
    | cons a l ih =>
      intro n
      exact Nat.le_trans (Nat.le_max_left _ _) (ih _)
  induction registers generalizing n with
  | nil => simp at h
  | cons a l ih =>
    rcases List.mem_cons.mp h with rfl | h
    · rw [List.foldl_cons]
      have := grows l (max n (r.toNat + 1))
      omega
    · exact ih h _

theorem lt_usedRegisters {f : Function} {i : Instruction} {r : Register}
    (hi : i ∈ f.instructions) (hr : r ∈ i.registers) : r.toNat < f.usedRegisters :=
  le_foldl_max_succ (List.mem_flatMap.mpr ⟨i, hi, hr⟩) 0

theorem usedRegisters_le (f : Function) : f.usedRegisters ≤ 256 := by
  have hfold : ∀ (l : List Register) (n : Nat), n ≤ 256 →
      l.foldl (fun n r => max n (r.toNat + 1)) n ≤ 256 := by
    intro l
    induction l with
    | nil => exact fun n hn => hn
    | cons r l ih =>
      intro n hn
      have hr := r.toNat_lt
      exact ih _ (Nat.max_le.mpr ⟨hn, by omega⟩)
  exact hfold _ 0 (by omega)

/-- Where the parameters and the locals add up in 64 bits, counting the registers counts them. -/
theorem registerCount_toNat_of_lt {f : Function}
    (h : f.numParams.toNat + f.numLocals.toNat < 2 ^ 64) :
    f.registerCount.toNat = f.registersNeeded := by
  have hle := f.usedRegisters_le
  have hsum : (f.numParams + f.numLocals).toNat = f.numParams.toNat + f.numLocals.toNat := by
    rw [UInt64.toNat_add]
    omega
  have hused : (UInt64.ofNat f.usedRegisters).toNat = f.usedRegisters := by
    rw [UInt64.toNat_ofNat']
    omega
  have hmax : f.registerCount =
      if UInt64.ofNat f.usedRegisters ≤ f.numParams + f.numLocals then f.numParams + f.numLocals
      else UInt64.ofNat f.usedRegisters := rfl
  rw [hmax, registersNeeded]
  split
  · rename_i hle
    rw [UInt64.le_iff_toNat_le] at hle
    omega
  · rename_i hle
    rw [UInt64.le_iff_toNat_le] at hle
    omega

/-- Where they fit in 32 bits, counting the registers in 64 bits counts them. -/
theorem registerCount_toNat {f : Function} (h : f.registersNeeded < 2 ^ 32 - 1) :
    f.registerCount.toNat = f.registersNeeded := by
  refine registerCount_toNat_of_lt ?_
  rw [registersNeeded] at h
  omega

end Function

end MutationAnalysis
