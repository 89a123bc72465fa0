/-
Validation is sufficient for compilation.

A compiled program is well formed when its module is well typed, its bodies are loops to which all
of their branches go, and every index of its layout stands for what the layout means by it: the
index of a type for exactly the signature that was asked for, the index of a function for a function
of the callee's signature, the index of a global for a global.

* `CompiledProgram.Comes.isTyped`: the module of a valid program is well typed, if the
  locals of its bodies are enough;
* `Program.compile_isWellFormed`: a valid program of functions with fewer than 2 ^ 32 - 1 registers
  compiles, and what it compiles to is well formed.
-/
import MutationAnalysis.Proofs.Lowering.Typing

namespace MutationAnalysis

open Wasm Lowering

/-- Every index that a layout gives out stands in a module for what it was asked for. -/
structure Lowering.Layout.Faithful (l : Layout) (m : Module) : Prop where
  function : ∀ f ∈ l.program.functions,
    m.types[l.typeIndex (funcType f.signature)]? = some (funcType f.signature)
  needed : ∀ i ∈ l.program.instructions, ∀ t, neededType? l.program i = some t →
    m.types[l.typeIndex t]? = some t
  defined : ∀ name f, l.program.function? name = some f →
    ∃ k, l.functionIndex? name = some k ∧ m.functionSpace[k]? = some (funcType f.signature)
  address : ∀ name ∈ l.program.undefinedSymbols, l.functionIndex? name = none ∧
    ∃ g i b, l.globalIndex? name = some g ∧ m.importedGlobals[g]? = some i ∧ i.kind = .global b
  cell : ∀ name ∈ l.program.cells,
    ∃ g i b, l.globalIndex? name = some g ∧ m.importedGlobals[g]? = some i ∧ i.kind = .global b
  probes : l.isInstrumented = true → m.types[l.typeIndex probeType]? = some probeType ∧
    m.functionSpace[enterProbe]? = some probeType ∧ m.functionSpace[leaveProbe]? = some probeType
  offset : l.isInstrumented = true →
    ∃ i b, m.importedGlobals[l.offsetGlobal]? = some i ∧ i.kind = .global b

/-- A body that is a loop to which every branch in it goes, after a call
of the probe if there is one. -/
def Lowering.IsDispatchLoop (l : Layout) (index : Nat) (code : Code) : Prop :=
  ∃ inner : Code, inner.BranchesTo 0 ∧
    code = Code.ofOps (probeOps l index enterProbe) ++ Code.loop inner (.op .unreachable .done)

/-- What is promised of a compiled program. -/
structure CompiledProgram.IsWellFormed (c : CompiledProgram) (p : Program) (l : Layout) : Prop where
  typed : c.code.IsTyped
  functions_length : c.code.functions.length = p.functions.length
  bodies : ∀ (i : Nat) (f : Function), p.functions[i]? = some f →
    ∃ body, c.code.functions[i]? = some body ∧
      c.code.types[body.type]? = some (funcType f.signature) ∧ IsDispatchLoop l i body.code
  exports : ∀ (i : Nat) (f : Function), p.functions[i]? = some f →
    c.code.exports[i]? = some ⟨f.name, l.probes + i⟩ ∧
      c.code.functionSpace[l.probes + i]? = some (funcType f.signature)
  faithful : l.Faithful c.code

namespace CompiledProgram.Comes

variable {p : Program} {moduleId : String} {probed : Bool} {minPages : Nat} {c : CompiledProgram}
  {l : Layout}

theorem functionTypes_lt (h : c.Comes p moduleId probed minPages l) :
    ∀ t ∈ c.code.functionTypes, t < c.code.types.length := by
  have hlt : ∀ t ∈ l.types, l.typeIndex t < c.code.types.length := fun t ht => by
    rw [h.types]
    exact List.idxOf_lt_length_of_mem ht
  intro t ht
  rcases List.mem_append.mp ht with ht | ht
  · rw [h.importedFunctions] at ht
    split at ht
    · rename_i hprobed
      obtain rfl : t = l.typeIndex probeType := by simpa using ht
      exact hlt _ (h.describes.probeType_mem hprobed)
    · simp at ht
  · obtain ⟨body, hbody, rfl⟩ := List.mem_map.mp ht
    obtain ⟨i, hi⟩ := List.mem_iff_getElem?.mp hbody
    obtain ⟨f, codes, hf, -, rfl⟩ := h.exists_function hi
    exact hlt _ (h.describes.funcType_mem (List.mem_of_getElem? hf))

/-- The functions defined come after the probes, with their own types. -/
theorem functionSpace_defined (h : c.Comes p moduleId probed minPages l) {i : Nat} {f : Function}
    (hf : p.functions[i]? = some f) :
    c.code.functionSpace[l.probes + i]? = some (funcType f.signature) := by
  obtain ⟨codes, -, hbody⟩ := h.body hf
  have hmem := h.describes.funcType_mem (List.mem_of_getElem? hf)
  rw [Module.functionSpace_getElem? h.functionTypes_lt, Module.functionTypes,
    List.getElem?_append_right (by rw [h.importedFunctions_length]; omega),
    h.importedFunctions_length, Nat.add_sub_cancel_left, List.getElem?_map, hbody, h.types]
  exact Layout.Describes.types_typeIndex hmem

theorem functionSpace_probes (h : c.Comes p moduleId probed minPages l)
    (hprobed : l.isInstrumented = true) :
    c.code.functionSpace[enterProbe]? = some probeType ∧
      c.code.functionSpace[leaveProbe]? = some probeType := by
  have htrue : probed = true := by rw [← h.describes.isInstrumented, hprobed]
  have htype : c.code.types[l.typeIndex probeType]? = some probeType := by
    rw [h.types]
    exact Layout.Describes.types_typeIndex (h.describes.probeType_mem htrue)
  rw [Module.functionSpace_getElem? h.functionTypes_lt,
    Module.functionSpace_getElem? h.functionTypes_lt, Module.functionTypes, h.importedFunctions,
    if_pos htrue]
  exact ⟨htype, htype⟩

/-- The scope of a body has what its code refers to. -/
theorem sees (h : c.Comes p moduleId probed minPages l) {f : Function} {codes : List Code}
    {index : Nat} (hlocals : f.HasLocals (f.numParams.toNat + extraLocals f)) :
    Sees (c.code.scope (funcType f.signature) (bodyOf l index f codes)) l p f where
  types := h.types
  functions := fun i g hg => h.functionSpace_defined hg
  probes := h.functionSpace_probes
  globals := by
    show l.offsetGlobal ≤ c.code.importedGlobals.length
    rw [h.importedGlobals_length]
    omega
  offset := fun hl => by
    show l.offsetGlobal < c.code.importedGlobals.length
    rw [h.importedGlobals_length, ← h.describes.isInstrumented, hl]
    simp
  locals := hlocals
  results := rfl

/-- The module of a valid program is well typed. -/
theorem isTyped (h : c.Comes p moduleId probed minPages l) (hp : p.IsValid)
    (hlocals : ∀ f ∈ p.functions, f.HasLocals (f.numParams.toNat + extraLocals f)) :
    c.code.IsTyped where
  types_nodup := by
    rw [h.types]
    exact h.describes.types_nodup
  functionTypes := h.functionTypes_lt
  exports := by
    intro e he
    rw [h.exports] at he
    obtain ⟨⟨f, i⟩, hmem, rfl⟩ := List.mem_map.mp he
    have hi := (List.getElem?_eq_some_iff.mp (List.mem_zipIdx_iff_getElem?.mp hmem)).1
    rw [Module.functionTypes, List.length_append, h.importedFunctions_length, List.length_map,
      h.functions_length]
    exact Nat.add_lt_add_left hi _
  names_nodup := by
    have hnames : c.code.exports.map (·.name) = p.functions.map (·.name) := by
      conv => rhs; rw [← List.zipIdx_map_fst 0 p.functions]
      rw [h.exports, List.map_map, List.map_map]
      rfl
    rw [hnames]
    exact hp.names_nodup
  bodies := by
    intro body hbody
    obtain ⟨i, hi⟩ := List.mem_iff_getElem?.mp hbody
    obtain ⟨f, codes, hf, hcodes, rfl⟩ := h.exists_function hi
    have hmem := List.mem_of_getElem? hf
    refine ⟨funcType f.signature, ?_, typed_bodyOf (h.sees (hlocals f hmem)) h.describes
      hp hmem hcodes⟩
    rw [h.types]
    exact Layout.Describes.types_typeIndex (h.describes.funcType_mem hmem)

theorem faithful (h : c.Comes p moduleId probed minPages l) (hp : p.IsValid) :
    l.Faithful c.code := by
  have hprogram := h.describes.program
  -- names that are undefined, and cells, are globals that the module imports
  have hglobal : ∀ name, name ∈ p.undefinedSymbols ∨ name ∈ p.cells → ∃ g i b,
      l.globalIndex? name = some g ∧ c.code.importedGlobals[g]? = some i ∧ i.kind = .global b := by
    intro name hname
    obtain ⟨g, hg⟩ := exists_globalIndex? h.describes hname
    have hlt := globalIndex?_lt hg
    obtain ⟨i, b, hi, hb⟩ := Module.importedGlobals_getElem? (g := g) (by
      rw [h.importedGlobals_length]
      omega)
    exact ⟨g, i, b, hg, hi, hb⟩
  refine ⟨?_, ?_, ?_, ?_, ?_, fun hl => ⟨?_, h.functionSpace_probes hl⟩, fun hl => ?_⟩
  all_goals try rw [hprogram]
  all_goals try rw [h.types]
  · exact fun f hf => Layout.Describes.types_typeIndex (h.describes.funcType_mem hf)
  · exact fun i hi t ht => Layout.Describes.types_typeIndex (h.describes.neededType_mem hi ht)
  · intro name f hf
    obtain ⟨i, hi, rfl⟩ := Program.exists_index_of_function? hf
    exact ⟨_, h.describes.functionIndex?_eq_some hp hi, h.functionSpace_defined hi⟩
  · intro name hname
    obtain ⟨_, _, _, _, hnone⟩ := Program.mem_undefinedSymbols.mp hname
    exact ⟨h.describes.functionIndex?_eq_none hnone, hglobal name (.inl hname)⟩
  · exact fun name hname => hglobal name (.inr hname)
  · exact Layout.Describes.types_typeIndex
      (h.describes.probeType_mem (by rw [← h.describes.isInstrumented, hl]))
  · refine Module.importedGlobals_getElem? ?_
    rw [h.importedGlobals_length, ← h.describes.isInstrumented, hl]
    simp

/-- What valid programs compile to is well formed. -/
theorem isWellFormed (h : c.Comes p moduleId probed minPages l) (hp : p.IsValid)
    (hlocals : ∀ f ∈ p.functions, f.HasLocals (f.numParams.toNat + extraLocals f)) :
    c.IsWellFormed p l where
  typed := h.isTyped hp hlocals
  functions_length := h.functions_length
  bodies := by
    intro i f hf
    obtain ⟨codes, hcodes, hbody⟩ := h.body hf
    have hmem := List.mem_of_getElem? hf
    refine ⟨_, hbody, ?_, _, branchesTo_blocks h.describes hp hmem hcodes, rfl⟩
    rw [h.types]
    exact Layout.Describes.types_typeIndex (h.describes.funcType_mem hmem)
  exports := by
    intro i f hf
    refine ⟨?_, h.functionSpace_defined hf⟩
    rw [h.exports, List.getElem?_map, List.getElem?_zipIdx, hf]
    simp
  faithful := h.faithful hp

end CompiledProgram.Comes

/-- A program with a call of itself, a call of a host's function and a branch. -/
def countdown : Program where
  functions := [{
    name := "countdown", numParams := 1, numLocals := 1, returnType := .int
    blocks := [
      ⟨[⟨.branchIf, none, [.register 0, .block 1, .block 2], none⟩]⟩,
      ⟨[⟨.sub, some 1, [.register 0, .immediate (.int 1)], none⟩,
        ⟨.call, none, [.symbol "print_i32", .register 1], none⟩,
        ⟨.call, some 1, [.symbol "countdown", .register 1], none⟩,
        ⟨.ret, none, [.register 1], none⟩]⟩,
      ⟨[⟨.ret, none, [.immediate (.int 0)], none⟩]⟩] }]
  declarations := [⟨"print_i32", 1, .void⟩]
  constructors := []
  version := 1

/-- A valid program whose functions need fewer than 2 ^ 32 - 1 registers each compiles, whatever its
module's name and whether or not it is instrumented, and what it compiles to is well formed. -/
theorem Program.compile_isWellFormed {p : Program} (hp : p.validate = .ok ())
    (hregisters : ∀ f ∈ p.functions, f.registersNeeded < 2 ^ 32 - 1) (moduleId : String)
    (isInstrumented : Bool) (minPages : Nat) :
    ∃ c l, p.compile moduleId isInstrumented minPages = .ok c ∧
      Layout.of p isInstrumented = .ok l ∧ c.IsWellFormed p l := by
  have hvalid := Program.isValid_of_validate hp
  obtain ⟨c, hc⟩ := Program.exists_compile hvalid moduleId isInstrumented minPages
  obtain ⟨l, hl⟩ := Program.comes_of_compile hc
  exact ⟨c, l, hc, hl.layout, hl.isWellFormed hvalid fun f hf =>
    Function.hasLocals_of_lt (hregisters f hf)⟩

theorem countdown_isWellFormed : ∃ c l, countdown.compile "m" true 1 = .ok c ∧
    Layout.of countdown true = .ok l ∧ c.IsWellFormed countdown l :=
  Program.compile_isWellFormed (by rfl) (by decide) "m" true 1

end MutationAnalysis
