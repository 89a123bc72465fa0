/-
A program and the one that it is prepared to.

`Program.Redirects` says that one program does through stubs what another does directly:
functions stay where they are or are stubs there, the bodies that the stubs call are added under
names that are fresh, and nothing but stubs calls through cells.  The untouched program and every
program that is edited where a point stands are related in this way to the prepared one; they
differ only in what the cells hold.

* `Program.Redirects.isValid`: if the one is valid, the other is;
* `Program.IsPrepared.redirects_self`, `Program.IsPrepared.redirects_edit`: the prepared program
  does what the program does, and what it does when it is edited at a point.
-/
import MutationAnalysis.Proofs.Interpreter.Realization
import MutationAnalysis.Proofs.Mutation.Edit
import MutationAnalysis.Proofs.Mutation.Identifier
import MutationAnalysis.Proofs.Unit.Preparation

namespace MutationAnalysis

namespace Program

/-- A name that a program defines or calls. -/
def Mentions (p : Program) (name : String) : Prop :=
  (∃ f ∈ p.functions, f.name = name) ∨ ∃ i ∈ p.instructions, i.callee = some name

instance (p : Program) (name : String) : Decidable (p.Mentions name) :=
  inferInstanceAs (Decidable ((∃ f ∈ p.functions, f.name = name) ∨
    ∃ i ∈ p.instructions, i.callee = some name))

/-- The second program does through stubs what the first does directly, where `holds` says which
name has the address in a cell, and `fresh` which names the first does not use. -/
structure Redirects (p p' : Program) (holds : String → String → Prop) (fresh : String → Prop) :
    Prop where
  declarations_eq : p'.declarations = p.declarations
  constructors_eq : p'.constructors = p.constructors
  constructors_mem : ∀ name ∈ p.constructors, ∃ f ∈ p.functions, f.name = name
  names : ∃ added, p'.functions.map (·.name) = p.functions.map (·.name) ++ added ∧
    ∀ name ∈ added, fresh name
  function : ∀ (i : Nat) (f : Function), p.functions[i]? = some f → p'.functions[i]? = some f ∨
    ∃ cell name, ∃ j : Nat, f.numParams.toNat ≤ 255 ∧ p'.functions[i]? = some (f.stub cell) ∧
      p'.functions[j]? = some { f with name } ∧ holds cell name
  calls : ∀ i ∈ p.instructions, ∀ name, i.callee = some name → i.opcode = .call
  calls' : ∀ i ∈ p'.instructions, ∀ name, i.callee = some name →
    (i.opcode = .call ∧ ¬ fresh name) ∨ (i.opcode = .callIndirect ∧ fresh name)

variable {p p' : Program} {holds : String → String → Prop} {fresh : String → Prop} {name : String}
  {i : Nat} {f : Function}

namespace Redirects

variable (h : p.Redirects p' holds fresh)

include h

theorem length_le : p.functions.length ≤ p'.functions.length := by
  obtain ⟨added, hnames, -⟩ := h.names
  have hlength := congrArg List.length hnames
  rw [List.length_append, List.length_map, List.length_map] at hlength
  omega

/-- What stands in the place of a function has its name and its signature. -/
theorem exists_function (hf : p.functions[i]? = some f) :
    ∃ g, p'.functions[i]? = some g ∧ g.name = f.name ∧ g.signature = f.signature := by
  rcases h.function i f hf with hg | ⟨cell, _, _, -, hg, -⟩
  · exact ⟨f, hg, rfl, rfl⟩
  · exact ⟨f.stub cell, hg, rfl, rfl⟩

/-- A body of the second program runs for a function of the first, under whatever name. -/
theorem exists_body (hf : f ∈ p.functions) : ∃ name, { f with name } ∈ p'.functions := by
  obtain ⟨i, hi⟩ := List.mem_iff_getElem?.mp hf
  rcases h.function i f hi with hg | ⟨_, name, j, -, -, hg, -⟩
  · exact ⟨f.name, List.mem_of_getElem? hg⟩
  · exact ⟨name, List.mem_of_getElem? hg⟩

theorem mem_instructions {x : Instruction} (hx : x ∈ p.instructions) : x ∈ p'.instructions := by
  obtain ⟨f, hf, hx⟩ := List.mem_flatMap.mp hx
  obtain ⟨name, hg⟩ := h.exists_body hf
  exact List.mem_flatMap.mpr ⟨_, hg, hx⟩

theorem not_fresh {x : Instruction} (hx : x ∈ p.instructions) (hname : x.callee = some name) :
    ¬ fresh name := by
  rcases h.calls' x (h.mem_instructions hx) name hname with ⟨-, hnot⟩ | ⟨hop, -⟩
  · exact hnot
  · rw [h.calls x hx name hname] at hop
    cases hop

theorem functionIndex?_eq (hname : ¬ fresh name) :
    p'.functionIndex? name = p.functionIndex? name := by
  obtain ⟨added, hnames, hfresh⟩ := h.names
  exact functionIndex?_append hnames fun hmem => hname (hfresh name hmem)

theorem function?_eq_none (hname : ¬ fresh name) : p'.function? name = none ↔
    p.function? name = none := by
  rw [← functionIndex?_eq_none, ← functionIndex?_eq_none, h.functionIndex?_eq hname]

theorem signature?_eq (hnames : (p'.functions.map (·.name)).Nodup) (hname : ¬ fresh name) :
    p'.signature? name = p.signature? name :=
  signature?_congr hnames h.declarations_eq (h.functionIndex?_eq hname) fun _ _ => h.exists_function

/-- What is done through stubs is valid only if it is valid when done directly. -/
theorem isValid (hp' : p'.IsValid) : p.IsValid where
  names_nodup := by
    obtain ⟨added, hnames, -⟩ := h.names
    have hnodup := hp'.names_nodup
    rw [hnames] at hnodup
    exact (List.nodup_append.mp hnodup).1
  functions := by
    intro f hf
    obtain ⟨name, hg⟩ := h.exists_body hf
    have hvalid := hp'.functions _ hg
    refine ⟨hvalid.numParams_le, hvalid.blocks_ne_nil, fun b hb => ?_⟩
    have htail := hvalid.blocks b hb
    refine ⟨fun x hx => ?_, htail.terminated⟩
    refine (htail.fits x hx).transfer rfl rfl fun callee s hcallee hs => ?_
    -- nothing calls a generated name, so callees are the same in both
    have hnot := h.not_fresh (Program.mem_instructions hf hb hx) hcallee
    rw [← h.signature?_eq hp'.names_nodup hnot, hs]
  constructors := by
    intro name hname
    obtain ⟨f, hf, rfl⟩ := h.constructors_mem name hname
    obtain ⟨added, hnames, -⟩ := h.names
    have hnodup := hp'.names_nodup
    rw [hnames] at hnodup
    obtain ⟨i, hi⟩ := List.mem_iff_getElem?.mp hf
    obtain ⟨g, hg, hgname, hsignature⟩ := h.exists_function hi
    obtain ⟨g', hg', hparams⟩ := hp'.constructors f.name (h.constructors_eq ▸ hname)
    have hfound := function?_eq_some hp'.names_nodup hg
    rw [hgname, hg'] at hfound
    obtain rfl := Option.some.inj hfound
    have hnum : g'.numParams = f.numParams := congrArg Signature.numParams hsignature
    exact ⟨f, function?_eq_some (List.nodup_append.mp hnodup).1 hi, hnum ▸ hparams⟩

theorem cells_eq_nil : p.cells = [] := by
  refine List.eq_nil_iff_forall_not_mem.mpr fun name hname => ?_
  obtain ⟨x, hx, hop, hcallee⟩ := mem_cells.mp hname
  rw [h.calls x hx name hcallee] at hop
  cases hop

theorem separatesCells : p.SeparatesCells := by
  intro name _
  rw [h.cells_eq_nil]
  exact List.not_mem_nil

theorem separatesCells' : p'.SeparatesCells := by
  intro name hname hcell
  obtain ⟨x, hx, hop, hcallee, -⟩ := mem_undefinedSymbols.mp hname
  obtain ⟨y, hy, hop', hcallee'⟩ := mem_cells.mp hcell
  rcases h.calls' x hx name hcallee with ⟨-, hnot⟩ | ⟨hindirect, -⟩
  · rcases h.calls' y hy name hcallee' with ⟨hdirect, -⟩ | ⟨-, hfresh⟩
    · rw [hdirect] at hop'
      cases hop'
    · exact hnot hfresh
  · rw [hindirect] at hop
    cases hop

theorem mem_undefinedSymbols (hname : name ∈ p.undefinedSymbols) :
    name ∈ p'.undefinedSymbols ∧ ¬ fresh name := by
  obtain ⟨x, hx, hop, hcallee, hnone⟩ := Program.mem_undefinedSymbols.mp hname
  have hnot := h.not_fresh hx hcallee
  exact ⟨Program.mem_undefinedSymbols.mpr ⟨x, h.mem_instructions hx, hop, hcallee,
    (h.function?_eq_none hnot).mpr hnone⟩, hnot⟩

end Redirects

/-! ### Prepared programs -/

/-- Points have the keys of the functions that they are in. -/
def HasKeys (p : Program) (moduleId : String) (points : List MutationPoint) : Prop :=
  ∀ q ∈ points, ∀ f, p.functions[q.address.function]? = some f →
    q.key = SymbolName.key f.name moduleId

/-- The names that preparing a program for points brings into use. -/
def generated (points : List MutationPoint) (name : String) : Prop :=
  ∃ q ∈ points, name = SymbolName.cell q.key ∨ name = SymbolName.preserved q.key ∨
    name = q.identifier

variable {moduleId : String} {points : List MutationPoint}

theorem mutant_eq_ok {q : MutationPoint} {m : Function} : q.mutant f = .ok m ↔
    ∃ g, q.operator.apply q.address f = .ok g ∧ m = { g with name := q.identifier } :=
  Operator.apply_rename

/-- A function of a prepared program: one that is kept, a stub, or one that is added. -/
theorem IsPrepared.cases (h : p.IsPrepared moduleId points p') {j : Nat} {x : Function}
    (hx : p'.functions[j]? = some x) :
    (p.functions[j]? = some x) ∨
    (∃ q ∈ points, ∃ f, q.address.function = j ∧ p.functions[j]? = some f ∧ x = stubOf moduleId f) ∨
    (p.functions.length ≤ j ∧ ∃ q ∈ points, ∃ f, p.functions[q.address.function]? = some f ∧
      (x = preservedBody moduleId f ∨ q.mutant f = .ok x)) := by
  by_cases hj : j < p.functions.length
  · by_cases hpoint : ∃ q ∈ points, q.address.function = j
    · obtain ⟨q, hq, rfl⟩ := hpoint
      obtain ⟨f, hf, -, hstub, -⟩ := h.stubbed q hq
      exact .inr (.inl ⟨q, hq, f, rfl, hf, Option.some.inj (hx.symm.trans hstub)⟩)
    · have hkept := h.kept j _ (List.getElem?_eq_getElem hj) fun q hq heq => hpoint ⟨q, hq, heq⟩
      refine .inl ?_
      rw [List.getElem?_eq_getElem hj, ← hkept, hx]
  · exact .inr (.inr ⟨by omega, h.added j x (by omega) hx⟩)

/-- What a prepared program calls, the program calls itself or a stub calls through a cell. -/
theorem IsPrepared.callee_cases (h : p.IsPrepared moduleId points p')
    (hkeys : p.HasKeys moduleId points) {x : Instruction} (hx : x ∈ p'.instructions)
    (hname : x.callee = some name) : x ∈ p.instructions ∨
      (x.opcode = .callIndirect ∧ ∃ q ∈ points, name = SymbolName.cell q.key) := by
  have hinstructions : ∀ (i : Nat) (f : Function), p.functions[i]? = some f → x ∈ f.instructions →
      x ∈ p.instructions := fun i f hf hx => List.mem_flatMap.mpr ⟨f, List.mem_of_getElem? hf, hx⟩
  obtain ⟨g, hg, hx⟩ := List.mem_flatMap.mp hx
  obtain ⟨j, hj⟩ := List.mem_iff_getElem?.mp hg
  rcases h.cases hj with hf | ⟨q, hq, f, rfl, hf, rfl⟩ | ⟨-, q, hq, f, hf, rfl | hmutant⟩
  · exact .inl (hinstructions j g hf hx)
  · -- of the two instructions of a stub, the first calls
    obtain ⟨b, hb, hx⟩ := List.mem_flatMap.mp hx
    obtain rfl := List.mem_singleton.mp hb
    rcases List.mem_cons.mp hx with rfl | hx
    · obtain rfl := Option.some.inj hname
      exact .inr ⟨rfl, q, hq, by rw [hkeys q hq f hf]⟩
    · obtain rfl := List.mem_singleton.mp hx
      cases hname
  · exact .inl (hinstructions _ f hf hx)
  · obtain ⟨g, happly, rfl⟩ := mutant_eq_ok.mp hmutant
    rcases Operator.mem_instructions_of_apply happly hx with hx | hnone
    · exact .inl (hinstructions _ f hf hx)
    · rw [hnone] at hname
      cases hname

/-- The functions of a prepared program are named as those of the
program, and further ones follow. -/
theorem IsPrepared.names_eq (h : p.IsPrepared moduleId points p') : p'.functions.map (·.name) =
    p.functions.map (·.name) ++ (p'.functions.drop p.functions.length).map (·.name) := by
  conv => lhs; rw [← List.take_append_drop p.functions.length p'.functions, List.map_append]
  congr 1
  refine List.ext_getElem? fun i => ?_
  by_cases hi : i < p.functions.length
  · rw [List.getElem?_map, List.getElem?_map, List.getElem?_take_of_lt hi,
      List.getElem?_eq_getElem hi]
    have hat := List.getElem?_eq_getElem (Nat.lt_of_lt_of_le hi h.length_le)
    rw [hat]
    rcases h.cases hat with hx | ⟨_, _, f, -, hf, hx⟩ | ⟨hle, -⟩
    · rw [← hx, List.getElem?_eq_getElem hi]
    · rw [hx]
      rw [List.getElem?_eq_getElem hi] at hf
      rw [Option.some.inj hf]
      rfl
    · omega
  · rw [List.getElem?_eq_none (by rw [List.length_map, List.length_take]; omega),
      List.getElem?_eq_none (by rw [List.length_map]; omega)]

/-- The further functions have names that preparing brings into use. -/
theorem IsPrepared.generated_of_added (h : p.IsPrepared moduleId points p')
    (hkeys : p.HasKeys moduleId points)
    (hname : name ∈ (p'.functions.drop p.functions.length).map (·.name)) :
    generated points name := by
  obtain ⟨x, hx, rfl⟩ := List.mem_map.mp hname
  obtain ⟨k, hk⟩ := List.mem_iff_getElem?.mp hx
  rw [List.getElem?_drop] at hk
  obtain ⟨q, hq, f, hf, rfl | hmutant⟩ := h.added _ x (Nat.le_add_right _ _) hk
  · refine ⟨q, hq, .inr (.inl ?_)⟩
    rw [hkeys q hq f hf]
    rfl
  · obtain ⟨g, -, rfl⟩ := mutant_eq_ok.mp hmutant
    exact ⟨q, hq, .inr (.inr rfl)⟩

/-- A program that differs from another in the blocks of functions that points are in, where the
third has the differing functions, under the names whose addresses the cells hold. -/
structure Varies (e p p' : Program) (points : List MutationPoint) (holds : String → String → Prop) :
    Prop where
  others : e = { p with functions := e.functions }
  names : e.functions.map (·.name) = p.functions.map (·.name)
  kept : ∀ (i : Nat) (f : Function), p.functions[i]? = some f →
    (∀ q ∈ points, q.address.function ≠ i) → e.functions[i]? = some f
  body : ∀ q ∈ points, ∀ f, p.functions[q.address.function]? = some f →
    ∃ g name, ∃ j : Nat, e.functions[q.address.function]? = some g ∧
      g = { f with blocks := g.blocks } ∧
      p'.functions[j]? = some { g with name } ∧ holds (SymbolName.cell q.key) name ∧
      ∀ i ∈ g.instructions, i ∈ f.instructions ∨ i.callee = none

namespace Varies

variable {e : Program} {g : Function} (h : e.Varies p p' points holds)

include h

theorem length_eq : e.functions.length = p.functions.length := by
  have hlength := congrArg List.length h.names
  rwa [List.length_map, List.length_map] at hlength

/-- A function is the same, or it is one that a point is in. -/
theorem function_cases (hg : e.functions[i]? = some g) :
    ((∀ q ∈ points, q.address.function ≠ i) ∧ p.functions[i]? = some g) ∨
    ∃ q ∈ points, ∃ f, q.address.function = i ∧ p.functions[i]? = some f := by
  have hlt := (List.getElem?_eq_some_iff.mp hg).1
  rw [h.length_eq] at hlt
  have hf := List.getElem?_eq_getElem hlt
  by_cases hpoint : ∃ q ∈ points, q.address.function = i
  · obtain ⟨q, hq, hi⟩ := hpoint
    exact .inr ⟨q, hq, _, hi, hf⟩
  · have hnot : ∀ q ∈ points, q.address.function ≠ i := fun q hq heq => hpoint ⟨q, hq, heq⟩
    obtain rfl := Option.some.inj (hg.symm.trans (h.kept i _ hf hnot))
    exact .inl ⟨hnot, hf⟩

theorem mem_instructions {x : Instruction} (hx : x ∈ e.instructions) :
    x ∈ p.instructions ∨ x.callee = none := by
  obtain ⟨g, hg, hx⟩ := List.mem_flatMap.mp hx
  obtain ⟨i, hi⟩ := List.mem_iff_getElem?.mp hg
  rcases h.function_cases hi with ⟨-, hf⟩ | ⟨q, hq, f, rfl, hf⟩
  · exact .inl (List.mem_flatMap.mpr ⟨g, List.mem_of_getElem? hf, hx⟩)
  · obtain ⟨g', _, _, hg', -, -, -, hold⟩ := h.body q hq f hf
    obtain rfl := Option.some.inj (hg'.symm.trans hi)
    exact (hold x hx).imp_left fun hx => List.mem_flatMap.mpr ⟨f, List.mem_of_getElem? hf, hx⟩

/-- Where the third program is prepared, it has the same function, or a stub that calls its body. -/
theorem function (hprepared : p.IsPrepared moduleId points p') (hkeys : p.HasKeys moduleId points)
    (hg : e.functions[i]? = some g) : p'.functions[i]? = some g ∨
      ∃ cell name, ∃ j : Nat, g.numParams.toNat ≤ 255 ∧ p'.functions[i]? = some (g.stub cell) ∧
        p'.functions[j]? = some { g with name } ∧ holds cell name := by
  rcases h.function_cases hg with ⟨hnot, hf⟩ | ⟨q, hq, _, rfl, -⟩
  · exact .inl (hprepared.kept i g hf hnot)
  · obtain ⟨f, hf, hparams, hstub, -⟩ := hprepared.stubbed q hq
    obtain ⟨g', name, j, hg', hblocks, hj, hholds, -⟩ := h.body q hq f hf
    obtain rfl := Option.some.inj (hg'.symm.trans hg)
    refine .inr ⟨SymbolName.cell q.key, name, j, ?_, ?_, hj, hholds⟩
    · rw [hblocks]
      exact hparams
    · rw [hstub, hkeys q hq f hf, hblocks]
      rfl

theorem constructors_mem (hp : p.IsValid) (hname : name ∈ e.constructors) :
    ∃ f ∈ e.functions, f.name = name := by
  rw [h.others] at hname
  obtain ⟨f, hf, -⟩ := hp.constructors name hname
  have hmem : f.name ∈ e.functions.map (·.name) := by
    rw [h.names]
    exact List.mem_map_of_mem (mem_of_function? hf)
  obtain ⟨g, hg, hgname⟩ := List.mem_map.mp hmem
  exact ⟨g, hg, hgname.trans (name_of_function? hf)⟩

end Varies

section

variable (h : p.IsPrepared moduleId points p') (hp : p.IsValid)
  (hindirect : ∀ i ∈ p.instructions, i.opcode ≠ .callIndirect)
  (hkeys : p.HasKeys moduleId points) (hgenerated : ∀ name, generated points name → fresh name)
  (hmentions : ∀ name, p.Mentions name → ¬ fresh name)

include h hp hindirect hkeys hgenerated hmentions

/-- The prepared program does through stubs what a program does that differs from the one that was
prepared where the cells say. -/
theorem IsPrepared.redirects {e : Program} (he : e.Varies p p' points holds) :
    e.Redirects p' holds fresh := by
  -- what the program itself calls is called by name
  have hown : ∀ x ∈ p.instructions, ∀ name, x.callee = some name → x.opcode = .call ∧
      ¬ fresh name :=
    fun x hx name hname => ⟨(Instruction.opcode_of_callee hname).resolve_right (hindirect x hx),
      hmentions name (.inr ⟨x, hx, hname⟩)⟩
  refine ⟨?_, ?_, fun name hname => he.constructors_mem hp hname,
    ⟨(p'.functions.drop p.functions.length).map (·.name), ?_, fun name hname =>
      hgenerated name (h.generated_of_added hkeys hname)⟩,
    fun i g hg => he.function h hkeys hg, fun x hx name hname => ?_, fun x hx name hname => ?_⟩
  · rw [h.others, he.others]
  · rw [h.others, he.others]
  · rw [he.names]
    exact h.names_eq
  · rcases he.mem_instructions hx with hx | hnone
    · exact (hown x hx name hname).1
    · rw [hnone] at hname
      cases hname
  · rcases h.callee_cases hkeys hx hname with hx | ⟨hop, q, hq, rfl⟩
    · exact .inl (hown x hx name hname)
    · exact .inr ⟨hop, hgenerated _ ⟨q, hq, .inl rfl⟩⟩

/-- With every cell on its preserved body, the prepared program does what the program does. -/
theorem IsPrepared.redirects_self
    (hholds : ∀ q ∈ points, holds (SymbolName.cell q.key) (SymbolName.preserved q.key)) :
    p.Redirects p' holds fresh := by
  refine h.redirects hp hindirect hkeys hgenerated hmentions
    ⟨rfl, rfl, fun _ _ hf _ => hf, fun q hq f hf => ?_⟩
  obtain ⟨f', hf', -, -, ⟨j, -, hj⟩, -⟩ := h.stubbed q hq
  obtain rfl := Option.some.inj (hf.symm.trans hf')
  refine ⟨f, SymbolName.preserved q.key, j, hf, rfl, ?_, hholds q hq, fun i hi => .inl hi⟩
  rw [hj, hkeys q hq f hf]
  rfl

/-- With one cell on the mutant of a point, the prepared program does what the program does when it
is edited at that point. -/
theorem IsPrepared.redirects_edit {q : MutationPoint} {e : Program} (hq : q ∈ points)
    (he : p.editAt? q = some e) (hmutant : holds (SymbolName.cell q.key) q.identifier)
    (hholds : ∀ k ∈ points, k.address.function ≠ q.address.function →
      holds (SymbolName.cell k.key) (SymbolName.preserved k.key)) :
    e.Redirects p' holds fresh := by
  obtain ⟨f, g, hf, happly, rfl⟩ := editAt?_eq_some.mp he
  have hblocks := Operator.eq_of_apply happly
  have hlt := (List.getElem?_eq_some_iff.mp hf).1
  have hself : (p.functions.set q.address.function g)[q.address.function]? = some g :=
    List.getElem?_set_self hlt
  refine h.redirects hp hindirect hkeys hgenerated hmentions ⟨rfl, ?_, ?_, ?_⟩
  · show (p.functions.set q.address.function g).map (·.name) = _
    refine List.ext_getElem? fun i => ?_
    rw [List.getElem?_map, List.getElem?_map, List.getElem?_set]
    split
    · rename_i heq
      rw [← heq, hf, hblocks]
      rfl
    · rfl
  · intro i x hx hi
    rw [List.getElem?_set_ne (hi q hq)]
    exact hx
  · -- the stub of the edited function leads to its mutant, every other one to the preserved body
    intro k hk x hx
    by_cases hsame : k.address.function = q.address.function
    · rw [hsame] at hx ⊢
      obtain rfl := Option.some.inj (hf.symm.trans hx)
      obtain ⟨f', hf', -, -, -, m, hm, j, -, hj⟩ := h.stubbed q hq
      obtain rfl := Option.some.inj (hf.symm.trans hf')
      obtain ⟨g', hg', rfl⟩ := mutant_eq_ok.mp hm
      obtain rfl := Except.ok.inj (happly.symm.trans hg')
      have hkey : k.key = q.key := by
        rw [hkeys q hq f hf, hkeys k hk f (by rw [hsame]; exact hf)]
      exact ⟨g, q.identifier, j, hself, hblocks, hj, hkey ▸ hmutant,
        fun i hi => Operator.mem_instructions_of_apply happly hi⟩
    · obtain ⟨f', hf', -, -, ⟨j, -, hj⟩, -⟩ := h.stubbed k hk
      obtain rfl := Option.some.inj (hx.symm.trans hf')
      refine ⟨x, SymbolName.preserved k.key, j, ?_, rfl, ?_, hholds k hk hsame, fun i hi => .inl hi⟩
      · rw [List.getElem?_set_ne (Ne.symm hsame)]
        exact hx
      · rw [hj, hkeys k hk x hx]
        rfl

end

end Program

/-! ### Prepared units -/

namespace ProgramUnit

open Program

variable {unit unit' : ProgramUnit} {points : List MutationPoint} {keys : List String}
  {holds : String → String → Prop} {fresh : String → Prop} {q : MutationPoint}

/-- What a unit is prepared to, for points that are its own. -/
theorem prepared_of_isOf (hpoints : ∀ q ∈ unit.own points, q.IsOf unit)
    (hprepare : unit.prepare points = (unit', .ok keys)) :
    unit' = { unit with program := unit'.program } ∧ unit'.program.IsValid ∧
      unit.program.IsPrepared unit.identifier (unit.own points) unit'.program ∧
      ∀ q ∈ unit.own points, q.key ∈ keys := by
  obtain ⟨hunit, hvalid, hprepared, hkeys⟩ := isPrepared_of_prepare (fun q hq => by
    obtain ⟨-, f, hf, -⟩ := (hpoints q hq).exists_function
    exact (List.getElem?_eq_some_iff.mp hf).1) hprepare
  refine ⟨hunit, isValid_of_validate hvalid, hprepared, fun q hq => ?_⟩
  obtain ⟨-, f, hf, -⟩ := (hpoints q hq).exists_function
  exact (hkeys q.key).mpr ⟨q, hq, f, hf, (hpoints q hq).key_eq hf⟩

/-- Points of different functions of a unit have different keys. -/
theorem key_ne {k : MutationPoint} (hunit : unit.program.IsValid) (hq : q.IsOf unit)
    (hk : k.IsOf unit) (hne : k.address.function ≠ q.address.function) : k.key ≠ q.key := by
  intro heq
  obtain ⟨-, f, hf, -⟩ := hq.exists_function
  obtain ⟨-, g, hg, -⟩ := hk.exists_function
  rw [hq.key_eq hf, hk.key_eq hg] at heq
  exact hne (index_unique hunit.names_nodup hg hf (SymbolName.key_injective _ heq))

section

variable (hunit : unit.program.IsValid)
  (hindirect : ∀ i ∈ unit.program.instructions, i.opcode ≠ .callIndirect)
  (hpoints : ∀ q ∈ unit.own points, q.IsOf unit)
  (hgenerated : ∀ name, generated points name → fresh name)
  (hmentions : ∀ name, unit.program.Mentions name → ¬ fresh name)
  (hprepare : unit.prepare points = (unit', .ok keys))

include hunit hindirect hpoints hgenerated hmentions hprepare

/-- With every cell on its preserved body, the prepared unit does what the unit does. -/
theorem redirects_self
    (hholds : ∀ q ∈ unit.own points, holds (SymbolName.cell q.key) (SymbolName.preserved q.key)) :
    unit.program.Redirects unit'.program holds fresh := by
  obtain ⟨-, -, hprepared, -⟩ := prepared_of_isOf hpoints hprepare
  refine hprepared.redirects_self hunit hindirect (fun q hq f hf => (hpoints q hq).key_eq hf) ?_
    hmentions hholds
  rintro name ⟨q, hq, hname⟩
  exact hgenerated name ⟨q, (mem_own.mp hq).1, hname⟩

/-- With one cell on the mutant of a point, the prepared unit does what the unit does when
it is edited at that point. -/
theorem redirects_edit (hq : q ∈ unit.own points)
    (hmutant : holds (SymbolName.cell q.key) q.identifier)
    (hholds : ∀ k ∈ unit.own points, k.key ≠ q.key →
      holds (SymbolName.cell k.key) (SymbolName.preserved k.key)) :
    ∃ e, unit.program.editAt? q = some e ∧ e.Redirects unit'.program holds fresh := by
  obtain ⟨-, -, hprepared, -⟩ := prepared_of_isOf hpoints hprepare
  obtain ⟨f, hf, -, -, -, m, hm, -⟩ := hprepared.stubbed q hq
  obtain ⟨g, hg, -⟩ := mutant_eq_ok.mp hm
  refine ⟨_, editAt?_eq_some.mpr ⟨f, g, hf, hg, rfl⟩, ?_⟩
  refine hprepared.redirects_edit hunit hindirect (fun q hq f hf => (hpoints q hq).key_eq hf) ?_
    hmentions hq (editAt?_eq_some.mpr ⟨f, g, hf, hg, rfl⟩) hmutant fun k hk hne =>
      hholds k hk (key_ne hunit (hpoints q hq) (hpoints k hk) hne)
  rintro name ⟨q, hq, hname⟩
  exact hgenerated name ⟨q, (mem_own.mp hq).1, hname⟩

end

end ProgramUnit

end MutationAnalysis
