/-
Points are minimal edits of valid programs.

Where an operator makes a point, it can be applied, and what it does is as little as an edit can
do: in the block at the address one instruction is replaced by a different one of the same
shape, or it is removed, and nothing else in the function changes.  The program with the
function so edited is as valid as it was.

* `Operator.edit_ne`: no edit puts back what it takes away;
* `Operator.isMinimalEdit_of_apply`: what applying an operator does;
* `Program.validate_set`: replacing a function by an accepted one that is called alike;
* `Operator.point?_minimal`: all of it for the points of a unit.
-/
import MutationAnalysis.Proofs.Mutation.Discovery
import MutationAnalysis.Proofs.Mutation.Validity

namespace MutationAnalysis

/-! ### One instruction of a block -/

/-- The instructions on the right are those on the left but for the one at a position, which is
replaced by a different one with the same destination and as many operands, or is removed. -/
inductive EditedAt (position : Nat) : List Instruction → List Instruction → Prop
  | replaced {before after : List Instruction} {i j : Instruction}
      (hposition : before.length = position)
      (hne : j ≠ i) (hdest : j.dest = i.dest) (hcount : j.operands.length = i.operands.length) :
      EditedAt position (before ++ i :: after) (before ++ j :: after)
  | removed {before after : List Instruction} {i : Instruction}
      (hposition : before.length = position) :
      EditedAt position (before ++ i :: after) (before ++ after)

theorem EditedAt.ne {position : Nat} {old new : List Instruction} (h : EditedAt position old new) :
    new ≠ old := by
  cases h with
  | replaced _ hne =>
    intro heq
    obtain ⟨hij, -⟩ := List.cons.inj (List.append_cancel_left heq)
    exact hne hij
  | removed =>
    intro heq
    have hlength := congrArg List.length (List.append_cancel_left heq)
    rw [List.length_cons] at hlength
    omega

/-- A list parts at each of its places. -/
theorem exists_split_of_getElem? {α : Type} {l : List α} {k : Nat} {a : α} (h : l[k]? = some a) :
    ∃ before after, before.length = k ∧ l = before ++ a :: after := by
  obtain ⟨hk, rfl⟩ := List.getElem?_eq_some_iff.mp h
  refine ⟨l.take k, l.drop (k + 1), List.length_take_of_le (Nat.le_of_lt hk), ?_⟩
  rw [← List.drop_eq_getElem_cons hk, List.take_append_drop]

/-! ### Edits of instructions -/

namespace Operator

variable {o : Operator} {a : Address} {f g : Function} {i j : Instruction}

theorem replacement_ne {opcode opcode' : Opcode} (h : o.replacement opcode = some opcode') :
    opcode' ≠ opcode := by
  unfold replacement at h
  split at h <;> cases h <;> decide

theorem mutatedValue_ne (v : Value) : mutatedValue v ≠ v := by
  cases v with
  | int n =>
    rw [mutatedValue]
    split
    · rename_i hzero
      rw [hzero]
      decide
    · rename_i hne
      exact fun heq => hne (Value.int.inj heq).symm
  | bool b => cases b <;> decide

/-- What takes the place of an instruction is different from it. -/
theorem edit_ne (h : o.edit a i = .ok (some j)) : j ≠ i := by
  rcases edit_cases h with ⟨-, hnone⟩ | ⟨opcode, hr, hj⟩ | ⟨-, v, rest, ho, hj⟩
  · cases hnone
  · obtain rfl := Option.some.inj hj
    exact fun heq => replacement_ne hr (congrArg Instruction.opcode heq)
  · obtain rfl := Option.some.inj hj
    intro heq
    have hoperands := congrArg Instruction.operands heq
    rw [ho] at hoperands
    exact mutatedValue_ne v (Operand.immediate.inj (List.cons.inj hoperands).1)

/-- What takes the place of an instruction has its shape. -/
theorem edit_shape (h : o.edit a i = .ok (some j)) :
    j.dest = i.dest ∧ j.operands.length = i.operands.length := by
  rcases edit_cases h with ⟨-, hnone⟩ | ⟨opcode, -, hj⟩ | ⟨-, v, rest, ho, hj⟩
  · cases hnone
  · obtain rfl := Option.some.inj hj
    exact ⟨rfl, rfl⟩
  · obtain rfl := Option.some.inj hj
    exact ⟨rfl, by rw [ho]; rfl⟩

/-- The instructions of a block after an edit. -/
theorem editedAt_of_edit {instructions : List Instruction} {k : Nat} {edited : Option Instruction}
    (hi : instructions[k]? = some i) : o.edit a i = .ok edited →
    EditedAt k instructions (match edited with
      | some j => instructions.set k j
      | none => instructions.eraseIdx k) := by
  intro h
  obtain ⟨before, after, rfl, rfl⟩ := exists_split_of_getElem? hi
  cases edited with
  | some j =>
    obtain ⟨hdest, hcount⟩ := edit_shape h
    simp only [List.set_append_right _ _ (Nat.le_refl _), Nat.sub_self, List.set_cons_zero]
    exact .replaced rfl (edit_ne h) hdest hcount
  | none =>
    simp only [List.eraseIdx_append_of_length_le (Nat.le_refl _), Nat.sub_self,
      List.eraseIdx_cons_zero]
    exact .removed rfl

end Operator

/-! ### Edits of functions -/

/-- One function is another with one instruction edited, at the given place of the given block. -/
structure Function.IsMinimalEdit (g f : Function) (block position : Nat) : Prop where
  name_eq : g.name = f.name
  signature_eq : g.signature = f.signature
  numLocals_eq : g.numLocals = f.numLocals
  others : ∀ b, b ≠ block → g.blocks[b]? = f.blocks[b]?
  edited : ∃ old new, f.blocks[block]? = some old ∧ g.blocks[block]? = some new ∧
    EditedAt position old.instructions new.instructions

theorem Function.IsMinimalEdit.ne {f g : Function} {block position : Nat}
    (h : g.IsMinimalEdit f block position) : g ≠ f := by
  rintro rfl
  obtain ⟨old, new, hold, hnew, hedited⟩ := h.edited
  obtain rfl := Option.some.inj (hold.symm.trans hnew)
  exact hedited.ne rfl

theorem Operator.isMinimalEdit_of_apply {o : Operator} {a : Address} {f g : Function}
    (h : o.apply a f = .ok g) : g.IsMinimalEdit f a.block a.instruction := by
  obtain ⟨block, i, edited, hblock, hi, hedited, rfl⟩ := apply_eq_ok.mp h
  obtain ⟨hlt, -⟩ := List.getElem?_eq_some_iff.mp hblock
  exact ⟨rfl, rfl, rfl, fun b hb => List.getElem?_set_ne (Ne.symm hb), block, _, hblock,
    List.getElem?_set_self hlt, editedAt_of_edit hi hedited⟩

/-! ### Programs with one function edited -/

namespace Program

variable {p : Program} {k : Nat} {f g : Function}

/-- A valid program stays valid when a function is replaced by one of its name and signature that is
accepted in its place. -/
theorem validate_set (hp : p.validate = .ok ()) (hf : p.functions[k]? = some f)
    (hname : g.name = f.name) (hsignature : g.signature = f.signature) (hg : g.IsAccepted p) :
    ({ p with functions := p.functions.set k g } : Program).validate = .ok () := by
  generalize hp' : ({ p with functions := p.functions.set k g } : Program) = p'
  obtain ⟨hnodup, hfunctions, hconstructors⟩ := validate_eq_ok.mp hp
  have hnames : p'.names = p.names := by
    rw [← hp']
    exact map_set_eq hf hname
  have hfunction : ∀ (i : Nat) (x : Function), p.functions[i]? = some x →
      ∃ y, p'.functions[i]? = some y ∧ y.name = x.name ∧ y.signature = x.signature := by
    intro i x hx
    rw [← hp']
    by_cases heq : k = i
    · subst heq
      obtain rfl := Option.some.inj (hf.symm.trans hx)
      exact ⟨g, List.getElem?_set_self (List.getElem?_eq_some_iff.mp hf).1, hname, hsignature⟩
    · exact ⟨x, (List.getElem?_set_ne heq).trans hx, rfl, rfl⟩
  rw [← hnames] at hnodup
  -- callees are looked up by name, and all names and signatures are as they were
  have hcallee : ∀ name, p'.signature? name = p.signature? name := fun name => by
    refine signature?_congr hnodup (by rw [← hp']) ?_ hfunction
    rw [functionIndex?_eq_findIdx?, functionIndex?_eq_findIdx?, ← names, ← names, hnames]
  have htransfer : ∀ x : Function, x.IsAccepted p → x.IsAccepted p' := fun x hx =>
    hx.transfer rfl rfl rfl fun _ _ name s _ hs => by rw [hcallee name, hs]
  refine validate_eq_ok.mpr ⟨hnodup, fun x hx => ?_, fun name hmem => ?_⟩
  · rw [← hp'] at hx
    rcases List.mem_or_eq_of_mem_set hx with hx | rfl
    · exact htransfer x (hfunctions x hx)
    · exact htransfer x hg
  · rw [← hp'] at hmem
    exact exists_constructor hnodup hfunction (hconstructors name hmem)

end Program

/-! ### Points -/

/-- Where an operator makes a point of a unit whose program is valid, it can be applied; the
function that it is applied to becomes a different one, by a minimal edit at the point's address,
and the program with that function in its place is valid. -/
theorem Operator.point?_minimal {unit : ProgramUnit} {o : Operator} {a : Address}
    {q : MutationPoint} (hvalid : unit.program.validate = .ok ()) (h : o.point? unit a = some q) :
    ∃ f g, unit.program.functions[a.function]? = some f ∧ o.apply a f = .ok g ∧ g ≠ f ∧
      g.IsMinimalEdit f a.block a.instruction ∧
      ({ unit.program with functions := unit.program.functions.set a.function g } :
        Program).validate
        = .ok () := by
  obtain ⟨f, i, hf, hi, happlies, -⟩ := eq_of_point? h
  obtain ⟨g, hg⟩ := exists_apply hi happlies
  have hminimal := isMinimalEdit_of_apply hg
  have haccepted : f.IsAccepted unit.program :=
    (Program.validate_eq_ok.mp hvalid).2.1 f (List.mem_of_getElem? hf)
  exact ⟨f, g, hf, hg, hminimal.ne, hminimal, Program.validate_set hvalid hf hminimal.name_eq
    hminimal.signature_eq (haccepted.apply hi happlies hg)⟩

/-- A program that announces its argument before it adds one to it. -/
def announcing : Program where
  functions := [{
    name := "next", numParams := 1, numLocals := 0, returnType := .int
    blocks := [⟨[⟨.branch, none, [.block 1], none⟩]⟩,
      ⟨[⟨.call, none, [.symbol "print_i32", .register 0], none⟩,
        ⟨.add, some 0, [.register 0, .immediate (.int 1)], none⟩, .returning (some 0)]⟩] }]
  declarations := [⟨"print_i32", 1, .void⟩]
  constructors := []
  version := 1

/-- Without the announcement the function is still one that can be compiled. -/
theorem announcing_minimal : ∃ f g, announcing.functions[0]? = some f ∧
    Operator.removeVoidFunction.apply ⟨0, 1, 0⟩ f = .ok g ∧ g ≠ f ∧ g.IsMinimalEdit f 1 0 ∧
    ({ announcing with functions := announcing.functions.set 0 g } : Program).validate = .ok () :=
  let unit : ProgramUnit := ⟨announcing, .source, "next.json", "m"⟩
  let q : MutationPoint :=
    ⟨"m", "next", ⟨0, 1, 0⟩, .removeVoidFunction, "Remove Void Call: removed print_i32", none, []⟩
  have hvalid : unit.program.validate = .ok () := by decide
  have hpoint : Operator.removeVoidFunction.point? unit ⟨0, 1, 0⟩ = some q := by decide
  Operator.point?_minimal hvalid hpoint

end MutationAnalysis
