/-
What an edit does to a function.

An operator changes the blocks of a function only, and not its other parts, so it commutes with
giving the function another name.  It puts nothing into a function that calls.

* `Operator.apply_rename`: editing a renamed function;
* `Operator.mem_instructions_of_apply`: an instruction of an edited function was
  there before, or it calls nothing.
-/
import MutationAnalysis.Mutation.Point
import MutationAnalysis.Proofs.Except

namespace MutationAnalysis

namespace Operator

variable {o : Operator} {a : Address} {f g : Function} {i j : Instruction}

theorem apply_eq_ok : o.apply a f = .ok g ↔ ∃ block i edited, f.blocks[a.block]? = some block ∧
    block.instructions[a.instruction]? = some i ∧ o.edit a i = .ok edited ∧
    g = { f with blocks := f.blocks.set a.block ⟨match edited with
      | some j => block.instructions.set a.instruction j
      | none => block.instructions.eraseIdx a.instruction⟩ } := by
  unfold apply
  -- at an address outside of the function there is nothing to edit, and both sides are false
  split
  · rename_i hblock
    simp [hblock]
  · rename_i block hblock
    split
    · rename_i hi
      refine iff_of_false (by simp) ?_
      rintro ⟨block', i, edited, hblock', hi', -⟩
      obtain rfl := Option.some.inj (hblock.symm.trans hblock')
      rw [hi] at hi'
      cases hi'
    · rename_i i hi
      rw [bind_eq_ok]
      constructor
      · rintro ⟨edited, hedited, hg⟩
        exact ⟨block, i, edited, hblock, hi, hedited, (Except.ok.inj hg).symm⟩
      · rintro ⟨block', i', edited, hblock', hi', hedited, rfl⟩
        obtain rfl := Option.some.inj (hblock.symm.trans hblock')
        obtain rfl := Option.some.inj (hi.symm.trans hi')
        exact ⟨edited, hedited, rfl⟩

/-- An edit leaves all but the blocks of a function alone. -/
theorem eq_of_apply (h : o.apply a f = .ok g) : g = { f with blocks := g.blocks } := by
  obtain ⟨_, _, _, -, -, -, rfl⟩ := apply_eq_ok.mp h
  rfl

/-- The edit of a renamed function is the renamed edit of the function. -/
theorem apply_rename {name : String} {m : Function} :
    o.apply a { f with name } = .ok m ↔ ∃ g, o.apply a f = .ok g ∧ m = { g with name } := by
  simp only [apply_eq_ok]
  constructor
  · rintro ⟨block, i, edited, hblock, hi, hedited, rfl⟩
    exact ⟨_, ⟨block, i, edited, hblock, hi, hedited, rfl⟩, rfl⟩
  · rintro ⟨g, ⟨block, i, edited, hblock, hi, hedited, rfl⟩, rfl⟩
    exact ⟨block, i, edited, hblock, hi, hedited, rfl⟩

/-- An opcode that computes one word from two gives way to another one that does. -/
theorem isBinary_of_replacement {opcode opcode' : Opcode}
    (h : o.replacement opcode = some opcode') :
    opcode.isBinary = true ∧ opcode'.isBinary = true := by
  unfold replacement at h
  split at h <;> cases h <;> exact ⟨rfl, rfl⟩

/-- An edit removes a call, or it replaces an opcode or a constant. -/
theorem edit_cases {edited : Option Instruction} (h : o.edit a i = .ok edited) :
    (i.opcode = .call ∧ edited = none) ∨
    (∃ opcode, o.replacement i.opcode = some opcode ∧ edited = some { i with opcode }) ∨
    (o = scalarValue ∧ ∃ v rest, i.operands = .immediate v :: rest ∧
      edited = some { i with operands := .immediate (mutatedValue v) :: rest }) := by
  cases o with
  | removeVoidFunction =>
    rw [edit] at h
    split at h
    · rename_i hcall
      exact .inl ⟨hcall, (Except.ok.inj h).symm⟩
    · cases h
  | scalarValue =>
    rw [edit] at h
    split at h
    · rename_i v rest ho
      exact .inr (.inr ⟨rfl, v, rest, ho, (Except.ok.inj h).symm⟩)
    · cases h
  | mathAdd | mathSub | mathMul | mathDiv | negateCondition | conditionalsBoundary =>
    simp only [edit] at h
    split at h
    · rename_i opcode hr
      exact .inr (.inl ⟨opcode, hr, (Except.ok.inj h).symm⟩)
    · cases h

/-- What takes the place of an instruction calls nothing. -/
theorem callee_of_edit (h : o.edit a i = .ok (some j)) : j.callee = none := by
  rcases edit_cases h with ⟨-, hnone⟩ | ⟨opcode, hr, hj⟩ | ⟨-, v, rest, -, hj⟩
  · cases hnone
  · obtain rfl := Option.some.inj hj
    have hcall : opcode.isCall = false := by
      have hbinary := (isBinary_of_replacement hr).2
      cases opcode <;> first | rfl | cases hbinary
    rw [Instruction.callee, hcall]
  · obtain rfl := Option.some.inj hj
    rw [Instruction.callee]
    split
    · rename_i heq
      cases heq
    · rfl

/-- An instruction of an edited function was there before, or it has taken the
place of the one at the address. -/
theorem instruction_cases_of_apply (h : o.apply a f = .ok g) (hj : j ∈ g.instructions) :
    j ∈ f.instructions ∨
      ∃ i, f.instruction? a.block a.instruction = some i ∧ o.edit a i = .ok (some j) := by
  obtain ⟨block, i, edited, hblock, hi, hedited, rfl⟩ := apply_eq_ok.mp h
  obtain ⟨b, hb, hj⟩ := List.mem_flatMap.mp hj
  rcases List.mem_or_eq_of_mem_set hb with hb | rfl
  · exact .inl (List.mem_flatMap.mpr ⟨b, hb, hj⟩)
  · have hold : ∀ k ∈ block.instructions, k ∈ f.instructions := fun k hk =>
      List.mem_flatMap.mpr ⟨block, List.mem_of_getElem? hblock, hk⟩
    cases edited with
    | none => exact .inl (hold j (List.mem_of_mem_eraseIdx hj))
    | some k =>
      rcases List.mem_or_eq_of_mem_set hj with hj | rfl
      · exact .inl (hold j hj)
      · exact .inr ⟨i, Option.bind_eq_some_iff.mpr ⟨block, hblock, hi⟩, hedited⟩

theorem mem_instructions_of_apply (h : o.apply a f = .ok g) (hi : i ∈ g.instructions) :
    i ∈ f.instructions ∨ i.callee = none :=
  (instruction_cases_of_apply h hi).imp_right fun ⟨_, _, hedited⟩ => callee_of_edit hedited

end Operator

/-- The program with a point's edit made where it stands. -/
def Program.editAt? (p : Program) (q : MutationPoint) : Option Program :=
  match p.functions[q.address.function]? with
  | none => none
  | some f =>
    match q.operator.apply q.address f with
    | .ok g => some { p with functions := p.functions.set q.address.function g }
    | .error _ => none

theorem Program.editAt?_eq_some {p e : Program} {q : MutationPoint} :
    p.editAt? q = some e ↔ ∃ f g, p.functions[q.address.function]? = some f ∧
      q.operator.apply q.address f = .ok g ∧
      e = { p with functions := p.functions.set q.address.function g } := by
  unfold editAt?
  split
  · rename_i hnone
    simp [hnone]
  · rename_i f hf
    split
    · rename_i g hg
      simp [hf, hg, eq_comm]
    · rename_i fault hfault
      refine iff_of_false (by simp) ?_
      rintro ⟨f', g, hf', hg, -⟩
      obtain rfl := Option.some.inj (hf.symm.trans hf')
      rw [hfault] at hg
      cases hg

/-- An edit leaves names and signatures alone. -/
theorem Program.exists_function_of_editAt? {p e : Program} {q : MutationPoint} {f : Function}
    (h : p.editAt? q = some e) (hf : f ∈ p.functions) :
    ∃ g ∈ e.functions, g.name = f.name ∧ g.signature = f.signature := by
  obtain ⟨f₀, g, hf₀, hg, rfl⟩ := editAt?_eq_some.mp h
  obtain ⟨i, hi⟩ := List.mem_iff_getElem?.mp hf
  by_cases heq : q.address.function = i
  · subst heq
    obtain rfl := Option.some.inj (hf₀.symm.trans hi)
    refine ⟨g, List.mem_of_getElem? (List.getElem?_set_self ?_), ?_, ?_⟩
    · exact (List.getElem?_eq_some_iff.mp hf₀).1
    all_goals rw [Operator.eq_of_apply hg]
    rfl
  · exact ⟨f, List.mem_of_getElem? ((List.getElem?_set_ne heq).trans hi), rfl, rfl⟩

/-- An edit adds nothing that calls. -/
theorem Program.mem_instructions_of_editAt? {p e : Program} {q : MutationPoint} {i : Instruction}
    (h : p.editAt? q = some e) (hi : i ∈ e.instructions) :
    i ∈ p.instructions ∨ i.callee = none := by
  obtain ⟨f, g, hf, hg, rfl⟩ := editAt?_eq_some.mp h
  obtain ⟨x, hx, hmem⟩ := List.mem_flatMap.mp hi
  rcases List.mem_or_eq_of_mem_set hx with hx | rfl
  · exact .inl (List.mem_flatMap.mpr ⟨x, hx, hmem⟩)
  · exact (Operator.mem_instructions_of_apply hg hmem).imp_left fun hold =>
      List.mem_flatMap.mpr ⟨f, List.mem_of_getElem? hf, hold⟩

/-! ### Points -/

namespace MutationPoint

variable {q : MutationPoint} {unit : ProgramUnit} {f : Function}

/-- A point that an operator makes at an address of a unit, whatever tests reach it. -/
def IsOf (q : MutationPoint) (unit : ProgramUnit) : Prop :=
  q.operator.point? unit q.address = some { q with reachableTests := [] }

instance (q : MutationPoint) (unit : ProgramUnit) : Decidable (q.IsOf unit) :=
  inferInstanceAs (Decidable (_ = _))

theorem isOf_of_point? {o : Operator} {a : Address} (h : o.point? unit a = some q)
    (tests : List (String × Nat)) : IsOf { q with reachableTests := tests } unit := by
  obtain ⟨f, hf, hpoint⟩ := Option.bind_eq_some_iff.mp h
  obtain ⟨i, hi, hpoint⟩ := Option.bind_eq_some_iff.mp hpoint
  split at hpoint
  · obtain rfl := Option.some.inj hpoint
    exact h
  · cases hpoint

theorem IsOf.exists_function (h : q.IsOf unit) : q.moduleId = unit.identifier ∧
    ∃ f, unit.program.functions[q.address.function]? = some f ∧ q.function = f.name := by
  rw [IsOf, Operator.point?] at h
  obtain ⟨f, hf, h⟩ := Option.bind_eq_some_iff.mp h
  obtain ⟨i, -, h⟩ := Option.bind_eq_some_iff.mp h
  split at h
  · injection h with h
    injection h with hmodule hfunction
    exact ⟨hmodule.symm, f, hf, hfunction.symm⟩
  · cases h

/-- A point has the key of the function that it is in. -/
theorem IsOf.key_eq (h : q.IsOf unit)
    (hf : unit.program.functions[q.address.function]? = some f) :
    q.key = SymbolName.key f.name unit.identifier := by
  obtain ⟨hmodule, g, hg, hname⟩ := h.exists_function
  obtain rfl := Option.some.inj (hf.symm.trans hg)
  rw [key, hmodule, hname]

end MutationPoint

end MutationAnalysis
