/-
Edits of accepted functions.

Where an operator applies to an instruction that fits, its edit succeeds: what takes the
instruction's place fits there as well and ends the block if the instruction does, and an
instruction that is removed is a call.  So a function stays accepted when an operator is
applied that makes a point there.

* `Operator.exists_apply`: an operator that applies can be applied;
* `Function.IsAccepted.apply`: and what it makes of an accepted function is accepted.
-/
import MutationAnalysis.Proofs.Mutation.Edit
import MutationAnalysis.Proofs.Program.Acceptance
import Mathlib.Data.List.InsertIdx

namespace MutationAnalysis

namespace Operator

variable {o : Operator} {a : Address} {p : Program} {f g : Function} {i j : Instruction}

theorem exists_edit (h : o.applies p i = true) : ∃ edited, o.edit a i = .ok edited := by
  cases o with
  | removeVoidFunction =>
    have hcall : i.opcode = .call := by
      rw [applies, isVoidCall, Bool.and_eq_true, Bool.and_eq_true, beq_iff_eq] at h
      exact h.1.1
    exact ⟨none, if_pos hcall⟩
  | scalarValue =>
    rw [applies, Bool.and_eq_true] at h
    obtain ⟨-, h⟩ := h
    split at h
    · rename_i v rest ho
      simp only [edit, ho]
      exact ⟨_, rfl⟩
    · cases h
  | mathAdd | mathSub | mathMul | mathDiv | negateCondition | conditionalsBoundary =>
    obtain ⟨opcode, hr⟩ := Option.isSome_iff_exists.mp h
    simp only [edit, hr]
    exact ⟨_, rfl⟩

/-- An operator that applies to the instruction at an address can be applied there. -/
theorem exists_apply (hi : f.instruction? a.block a.instruction = some i)
    (happlies : o.applies p i = true) : ∃ g, o.apply a f = .ok g := by
  obtain ⟨block, hblock, hi⟩ := Option.bind_eq_some_iff.mp hi
  obtain ⟨edited, hedited⟩ := exists_edit (a := a) happlies
  exact ⟨_, apply_eq_ok.mpr ⟨block, i, edited, hblock, hi, hedited, rfl⟩⟩

/-- What takes the place of an instruction fits there, and ends its
block if the instruction does. -/
theorem fits_of_edit (hi : i.Fits p f) (happlies : o.applies p i = true)
    (h : o.edit a i = .ok (some j)) :
    j.Fits p f ∧ j.opcode.isTerminator = i.opcode.isTerminator := by
  have hterminator : ∀ opcode : Opcode, opcode.isBinary = true → opcode.isTerminator = false := by
    intro opcode hbinary
    cases opcode <;> first | rfl | cases hbinary
  -- an edit takes the instruction away, changes its operation, or changes its constant
  rcases edit_cases h with ⟨-, hnone⟩ | ⟨opcode, hr, hj⟩ | ⟨rfl, v, rest, ho, hj⟩
  · cases hnone
  · obtain rfl := Option.some.inj hj
    obtain ⟨hbinary, hbinary'⟩ := isBinary_of_replacement hr
    refine ⟨?_, (hterminator _ hbinary').trans (hterminator _ hbinary).symm⟩
    cases hi with
    | binary hop ha hb => exact .binary hbinary' ha hb
    | unary hop => rcases hop with rfl | rfl | rfl | rfl <;> cases hbinary
    | loadConst | store | call | callIndirect | retNothing | retValue => cases hbinary
    | branch hop | branchIf hop | unreachable hop =>
      rw [hop] at hbinary
      cases hbinary
  · obtain rfl := Option.some.inj hj
    rw [applies, Bool.and_eq_true, beq_iff_eq] at happlies
    obtain ⟨hload, -⟩ := happlies
    refine ⟨?_, rfl⟩
    cases hi with
    | loadConst =>
      obtain ⟨-, rfl⟩ := List.cons.inj ho
      exact .loadConst
    | binary hop =>
      cases hload
      cases hop
    | unary hop => rcases hop with rfl | rfl | rfl | rfl <;> cases hload
    | store | call | callIndirect | retNothing | retValue => cases hload
    | branch hop | branchIf hop | unreachable hop =>
      rw [hop] at hload
      cases hload

theorem isTerminator_of_edit (h : o.edit a i = .ok none) : i.opcode.isTerminator = false := by
  rcases edit_cases h with ⟨hcall, -⟩ | ⟨_, -, hj⟩ | ⟨-, _, _, -, hj⟩
  · rw [hcall]
    rfl
  · cases hj
  · cases hj

end Operator

namespace Block.EndsOnce

variable {b : Block} {k : Nat} {i j : Instruction}

/-- A block ends as before when an instruction is replaced by one that ends it if that one did. -/
theorem set (h : b.EndsOnce) (hi : b.instructions[k]? = some i)
    (hj : j.opcode.isTerminator = i.opcode.isTerminator) :
    EndsOnce ⟨b.instructions.set k j⟩ := by
  obtain ⟨n, hn⟩ := h
  exact ⟨n, (map_set_eq hi hj).trans hn⟩

/-- A block ends as before when an instruction is removed that does not end it. -/
theorem eraseIdx (h : b.EndsOnce) (hi : b.instructions[k]? = some i)
    (hend : i.opcode.isTerminator = false) : EndsOnce ⟨b.instructions.eraseIdx k⟩ := by
  obtain ⟨n, hn⟩ := h
  have hk : (List.replicate n false ++ [true])[k]? = some false := by
    rw [← hn, List.getElem?_map, hi, Option.map_some, hend]
  have hlt : k < n := by
    by_contra hge
    rw [List.getElem?_append_right (by rw [List.length_replicate]; omega),
      List.length_replicate] at hk
    rcases List.getElem?_eq_some_iff.mp hk with ⟨hlt, hfalse⟩
    simp at hlt hfalse
  refine ⟨n - 1, ?_⟩
  rw [← List.eraseIdx_map, hn, List.eraseIdx_append_of_lt_length (by rwa [List.length_replicate]),
    List.eraseIdx_replicate, if_pos hlt]

end Block.EndsOnce

/-- An accepted function stays accepted when an operator is applied to an instruction of it that the
operator makes a mutant of. -/
theorem Function.IsAccepted.apply {p : Program} {f g : Function} {o : Operator} {a : Address}
    {i : Instruction} (h : f.IsAccepted p) (hi : f.instruction? a.block a.instruction = some i)
    (happlies : o.applies p i = true) (hg : o.apply a f = .ok g) : g.IsAccepted p := by
  have hfit : i.Fits p f := by
    obtain ⟨b, hb, hi⟩ := Option.bind_eq_some_iff.mp hi
    exact h.fits i (List.mem_flatMap.mpr ⟨b, List.mem_of_getElem? hb, List.mem_of_getElem? hi⟩)
  obtain ⟨block, i', edited, hblock, hi', hedited, hself⟩ := Operator.apply_eq_ok.mp hg
  -- the instruction that is edited is the one the operator makes a mutant of
  obtain rfl : i = i' := by
    obtain ⟨b, hb, hi⟩ := Option.bind_eq_some_iff.mp hi
    obtain rfl := Option.some.inj (hblock.symm.trans hb)
    exact Option.some.inj (hi.symm.trans hi')
  have hlength : g.blocks.length = f.blocks.length := by rw [hself]; exact List.length_set
  refine ⟨?_, ?_, fun b hb => ?_, fun j hj => ?_⟩
  · rw [hself]
    exact h.numParams_le
  · rw [ne_eq, ← List.length_eq_zero_iff, hlength, List.length_eq_zero_iff]
    exact h.blocks_ne_nil
  · rw [hself] at hb
    rcases List.mem_or_eq_of_mem_set hb with hb | rfl
    · exact h.endsOnce b hb
    -- only this block is another one, and it still ends at its only terminator
    · have hends := h.endsOnce block (List.mem_of_getElem? hblock)
      cases edited with
      | none => exact hends.eraseIdx hi' (Operator.isTerminator_of_edit hedited)
      | some j => exact hends.set hi' (Operator.fits_of_edit hfit happlies hedited).2
  · have hj' : j.Fits p f := by
      rcases Operator.instruction_cases_of_apply hg hj with hold | ⟨k, hk, hedit⟩
      · exact h.fits j hold
      · obtain rfl := Option.some.inj (hi.symm.trans hk)
        exact (Operator.fits_of_edit hfit happlies hedit).1
    exact hj'.transfer hlength (by rw [hself]) fun _ _ _ hs => hs

end MutationAnalysis
