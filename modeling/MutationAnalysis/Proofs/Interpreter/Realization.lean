/-
Compiled programs in an image, and the environment that they stand for.

`Realizes l env` says that an image runs the compiled code of the programs of an environment: each
program has an instance of its module, whose imported globals hold what the environment says.
`Provides` lists, for one program and its layout, what its code finds in the image, in the form in
which execution needs it.

`RegisterFile.lowered` keeps registers as compiled code does: they are locals, and so is
the number of the block to run.
-/
import MutationAnalysis.Proofs.Interpreter.Basic
import MutationAnalysis.Proofs.Lowering.WellFormed

namespace MutationAnalysis

open Wasm Lowering

/-- Functions of a host give back as many words as their types say. -/
def Wasm.Host.IsTyped {η σ : Type} (h : Host η σ) : Prop :=
  ∀ name arguments memory state results memory' state',
    arguments.length = (h.type name).params →
    h.call name arguments memory state = .returned results memory' state' →
    results.length = (h.type name).results

/-- No name is both that of a function that the program calls and does
not define and that of a cell. -/
def Program.SeparatesCells (p : Program) : Prop := ∀ name ∈ p.undefinedSymbols, name ∉ p.cells

namespace Interpreter

variable {η σ : Type}

/-- The block that compiled code goes to: that of the number in the local for it, if there
are so many, else the last. -/
def dispatch (f : Function) (locals : Array Word) : Option Nat :=
  (locals[counterLocal f]?).map fun w =>
    (List.range f.blocks.length).getD w.toNat (lastBlock f.blocks.length)

/-- Registers as compiled code keeps them. -/
def RegisterFile.lowered : RegisterFile (Array Word) where
  start f arguments := arguments.toArray ++ Array.replicate (extraLocals f) 0
  read locals r := locals[r.toNat]?
  write locals r w := locals.setIfInBounds r.toNat w
  first f locals := dispatch f locals
  goTo f locals target :=
    let locals := locals.setIfInBounds (counterLocal f) target
    (dispatch f locals).map fun k => (k, locals)

/-- The references of the probes of a program, if it has any. -/
def Environment.probeRefs (env : Environment η σ) (home : Nat) : List (FuncRef η) :=
  match env.probes home with
  | none => []
  | some probes => [.host probes.enter, .host probes.leave]

/-- What an imported global of a program holds. -/
def Environment.globalValue (env : Environment η σ) (home : Nat) (i : Import) : Option Word :=
  match i.kind with
  | .global true => some (env.cell home i.name)
  | .global false =>
    if i.space = SymbolName.addresses then some (env.address home i.name)
    else (env.probes home).map (·.offset)
  | _ => none

/-- An image has an instance that runs the compiled code of a program. -/
def Runs (l : Linkage η σ) (env : Environment η σ) (home : Nat) (p : Program) : Prop :=
  ∃ moduleId minPages c inst,
    p.compile moduleId (env.probes home).isSome minPages = .ok c ∧ l.instances[home]? = some inst ∧
    inst.types = c.code.types.toArray ∧ inst.bodies = c.code.functions.toArray ∧
    inst.functions = (env.probeRefs home
      ++ (List.range c.code.functions.length).map (FuncRef.defined home)).toArray ∧
    ∀ (g : Nat) (i : Import), c.code.importedGlobals[g]? = some i →
      l.global? home g = env.globalValue home i

/-- An image runs the programs of an environment. -/
structure Realizes (l : Linkage η σ) (env : Environment η σ) : Prop where
  host : l.host = env.host
  table : l.table = env.table
  maxDepth : l.maxDepth = env.maxDepth
  runs : ∀ (home : Nat) (p : Program), env.programs[home]? = some p → Runs l env home p
  only : ∀ home : Nat, env.programs[home]? = none → l.instances[home]? = none

/-- Probes are functions of the host that take a number. -/
def Environment.HasProbes (env : Environment η σ) : Prop :=
  ∀ home probes, env.probes home = some probes →
    env.host.type probes.enter = probeType ∧ env.host.type probes.leave = probeType

/-- What the code of a program finds in an image. -/
structure Provides (l : Linkage η σ) (env : Environment η σ) (home : Nat) (p : Program)
    (layout : Layout) : Prop where
  program : env.programs[home]? = some p
  valid : p.IsValid
  describes : layout.Describes p (env.probes home).isSome
  type : ∀ t ∈ layout.types,
    l.instances[home]?.bind (·.types[layout.typeIndex t]?) = some t
  body : ∀ (i : Nat) (f : Function), p.functions[i]? = some f → ∃ codes,
    BlocksEmit layout i (counterLocal f) f.blocks codes ∧
      l.body? home i = some (funcType f.signature, bodyOf layout i f codes)
  noBody : ∀ i : Nat, p.functions[i]? = none → l.body? home i = none
  function : ∀ (i : Nat) (f : Function), p.functions[i]? = some f →
    l.instances[home]?.bind (·.functions[layout.probes + i]?) = some (.defined home i)
  address : ∀ name ∈ p.undefinedSymbols, ∀ g, layout.globalIndex? name = some g →
    l.global? home g = some (env.address home name)
  cell : ∀ name ∈ p.cells, ∀ g, layout.globalIndex? name = some g →
    l.global? home g = some (env.cell home name)
  probes : ∀ probes, env.probes home = some probes →
    l.instances[home]?.bind (·.functions[enterProbe]?) = some (.host probes.enter) ∧
    l.instances[home]?.bind (·.functions[leaveProbe]?) = some (.host probes.leave) ∧
    l.global? home layout.offsetGlobal = some probes.offset

variable {l : Linkage η σ} {env : Environment η σ} {home : Nat} {p : Program}

theorem Runs.provides (h : Runs l env home p) (hprogram : env.programs[home]? = some p)
    (hp : p.IsValid) (hcells : p.SeparatesCells) : ∃ layout, Provides l env home p layout := by
  obtain ⟨moduleId, minPages, c, inst, hcompile, hinst, htypes, hbodies, hfunctions, hglobals⟩ := h
  obtain ⟨layout, hc⟩ := Program.comes_of_compile hcompile
  have htype : ∀ t ∈ layout.types, inst.types[layout.typeIndex t]? = some t := fun t ht => by
    rw [htypes, hc.types, List.getElem?_toArray]
    exact Layout.Describes.types_typeIndex ht
  have hprobes : (env.probeRefs home).length = layout.probes := by
    rw [Environment.probeRefs, Layout.probes, hc.describes.isInstrumented]
    cases env.probes home <;> rfl
  refine ⟨layout, hprogram, hp, hc.describes, ?_, ?_, ?_, ?_, ?_, ?_, ?_⟩
  · -- the types of functions
    intro t ht
    rw [hinst]
    exact htype t ht
  · -- the body of a function
    intro i f hf
    obtain ⟨codes, hcodes, hbody⟩ := hc.body hf
    refine ⟨codes, hcodes, ?_⟩
    have hmem := hc.describes.funcType_mem (List.mem_of_getElem? hf)
    have hbody' : inst.bodies[i]? = some (bodyOf layout i f codes) := by
      rw [hbodies, List.getElem?_toArray, hbody]
    have htype' : inst.types[(bodyOf layout i f codes).type]? = some (funcType f.signature) :=
      htype _ hmem
    simp only [Linkage.body?, hinst, Option.bind_eq_bind, Option.bind_some, hbody', htype']
    rfl
  · -- no body where there is no function
    intro i hi
    have hnone : inst.bodies[i]? = none := by
      rw [hbodies, List.getElem?_toArray, List.getElem?_eq_none_iff, hc.functions_length]
      exact List.getElem?_eq_none_iff.mp hi
    simp only [Linkage.body?, hinst, Option.bind_eq_bind, Option.bind_some, hnone, Option.bind_none]
  · -- functions come after the probes
    intro i f hf
    obtain ⟨hlt, -⟩ := List.getElem?_eq_some_iff.mp hf
    rw [hinst, Option.bind_some, hfunctions, List.getElem?_toArray,
      List.getElem?_append_right (by omega), hprobes, Nat.add_sub_cancel_left, List.getElem?_map,
      List.getElem?_range (by rw [hc.functions_length]; exact hlt)]
    rfl
  · -- globals: the addresses first, then the cells, then the offset
    intro name hname g hg
    obtain ⟨i, s, hi, -, hindex⟩ :=
      hc.describes.globalIndex?_of_mem_undefined hname (hcells name hname)
    obtain rfl : i = g := Option.some.inj (hindex.symm.trans hg)
    obtain ⟨hlt, -⟩ := List.getElem?_eq_some_iff.mp hi
    have himport : c.code.importedGlobals[i]?
        = some ⟨SymbolName.addresses, name, .global false⟩ := by
      rw [hc.importedGlobals, List.append_assoc, List.getElem?_append_left (by simpa using hlt),
        List.getElem?_map, hi]
      rfl
    rw [hglobals i _ himport]
    simp [Environment.globalValue]
  · intro name hname g hg
    obtain ⟨i, hi, hindex⟩ := hc.describes.globalIndex?_of_mem_cells hname
    obtain rfl : layout.undefined.length + i = g := Option.some.inj (hindex.symm.trans hg)
    obtain ⟨hlt, -⟩ := List.getElem?_eq_some_iff.mp hi
    have himport : c.code.importedGlobals[layout.undefined.length + i]?
        = some ⟨SymbolName.environment, name, .global true⟩ := by
      rw [hc.importedGlobals, List.append_assoc, List.getElem?_append_right (by simp),
        List.length_map, Nat.add_sub_cancel_left, List.getElem?_append_left (by simpa using hlt),
        List.getElem?_map, hi]
      rfl
    rw [hglobals _ _ himport]
    rfl
  · intro probes hsome
    have himport : c.code.importedGlobals[layout.offsetGlobal]?
        = some ⟨SymbolName.environment, SymbolName.indexOffset moduleId, .global false⟩ := by
      rw [hc.importedGlobals, Layout.offsetGlobal, hsome, List.getElem?_append_right (by simp)]
      simp
    have hspace : SymbolName.environment ≠ SymbolName.addresses := by decide
    refine ⟨?_, ?_, ?_⟩
    · rw [hinst, Option.bind_some, hfunctions, List.getElem?_toArray, Environment.probeRefs, hsome]
      rfl
    · rw [hinst, Option.bind_some, hfunctions, List.getElem?_toArray, Environment.probeRefs, hsome]
      rfl
    · rw [hglobals _ _ himport]
      simp [Environment.globalValue, hspace, hsome]

/-- An instance of the compiled code of a program, whose globals are constants. -/
def Environment.instanceOf (env : Environment η σ) (home : Nat) (c : CompiledProgram) :
    Instance η where
  types := c.code.types.toArray
  functions := (env.probeRefs home
    ++ (List.range c.code.functions.length).map (FuncRef.defined home)).toArray
  globals :=
    (c.code.importedGlobals.map fun i => .constant ((env.globalValue home i).getD 0)).toArray
  bodies := c.code.functions.toArray

/-- An image that runs the programs of an environment. -/
def Environment.image (env : Environment η σ) : Linkage η σ where
  host := env.host
  instances := (env.programs.mapIdx fun home p =>
    match p.compile "" (env.probes home).isSome 0 with
    | .ok c => env.instanceOf home c
    | .error _ => ⟨#[], #[], #[], #[]⟩).toArray
  table := env.table
  cells := #[]
  maxDepth := env.maxDepth

/-- Every environment of valid programs is that of an image. -/
theorem realizes_image (h : ∀ p ∈ env.programs, p.IsValid) : Realizes env.image env where
  host := rfl
  table := rfl
  maxDepth := rfl
  runs := by
    intro home p hprogram
    obtain ⟨c, hcompile⟩ := Program.exists_compile (h p (List.mem_of_getElem? hprogram)) ""
      (env.probes home).isSome 0
    obtain ⟨layout, hc⟩ := Program.comes_of_compile hcompile
    have hinst : env.image.instances[home]? = some (env.instanceOf home c) := by
      rw [Environment.image, List.getElem?_toArray, List.getElem?_mapIdx, hprogram, Option.map_some,
        hcompile]
    refine ⟨"", 0, c, _, hcompile, hinst, rfl, rfl, rfl, fun g i hi => ?_⟩
    have hglobal : env.image.global? home g = some ((env.globalValue home i).getD 0) := by
      simp [Linkage.global?, hinst, Environment.instanceOf, hi]
    -- every imported global has a value
    have hvalue : (env.globalValue home i).isSome := by
      have hmem := List.mem_of_getElem? hi
      rw [hc.importedGlobals, List.mem_append, List.mem_append, List.mem_map, List.mem_map] at hmem
      rcases hmem with (⟨u, -, rfl⟩ | ⟨cell, -, rfl⟩) | hmem
      · simp [Environment.globalValue]
      · rfl
      · cases hprobes : env.probes home with
        | none =>
          rw [hprobes] at hmem
          simp at hmem
        | some probes =>
          rw [hprobes] at hmem
          obtain rfl : i = _ := by simpa using hmem
          rw [Environment.globalValue, hprobes]
          dsimp only
          split <;> rfl
    obtain ⟨w, hw⟩ := Option.isSome_iff_exists.mp hvalue
    rw [hglobal, hw]
    rfl
  only := by
    intro home hnone
    rw [Environment.image, List.getElem?_toArray, List.getElem?_mapIdx, hnone, Option.map_none]

/-- What execution needs to know of an image and its environment. -/
structure Agrees (l : Linkage η σ) (env : Environment η σ) : Prop where
  host : l.host = env.host
  table : l.table = env.table
  maxDepth : l.maxDepth = env.maxDepth
  provides : ∀ (home : Nat) (p : Program), env.programs[home]? = some p →
    ∃ layout, Provides l env home p layout
  only : ∀ home : Nat, env.programs[home]? = none → l.instances[home]? = none
  typed : env.host.IsTyped
  probes : env.HasProbes

theorem Realizes.agrees (h : Realizes l env)
    (hp : ∀ p ∈ env.programs, p.IsValid ∧ p.SeparatesCells) (htyped : env.host.IsTyped)
    (hprobes : env.HasProbes) : Agrees l env where
  host := h.host
  table := h.table
  maxDepth := h.maxDepth
  provides := fun home p hprogram =>
    have hmem := hp p (List.mem_of_getElem? hprogram)
    (h.runs home p hprogram).provides hprogram hmem.1 hmem.2
  only := h.only
  typed := htyped
  probes := hprobes

theorem function?_eq_some {i : Nat} {f : Function} :
    env.function? home i = some f ↔ ∃ p, env.programs[home]? = some p ∧
      p.functions[i]? = some f := by
  simp [Environment.function?, Option.bind_eq_some_iff]

namespace Agrees

variable (h : Agrees l env)

include h

theorem body?_eq_none {i : Nat} (hnone : env.function? home i = none) : l.body? home i = none := by
  cases hprogram : env.programs[home]? with
  | none =>
    simp only [Linkage.body?, h.only home hprogram, Option.bind_eq_bind, Option.bind_none]
  | some p =>
    obtain ⟨layout, hprovides⟩ := h.provides home p hprogram
    refine hprovides.noBody i ?_
    simpa [Environment.function?, hprogram] using hnone

/-- References lead to functions of the same type on both sides. -/
theorem type?_eq (ref : FuncRef η) : l.type? ref = env.type? ref := by
  cases ref with
  | host name => rw [Linkage.type?, Environment.type?, h.host]
  | defined home i =>
    rw [Linkage.type?, Environment.type?]
    cases hf : env.function? home i with
    | none => rw [h.body?_eq_none hf, Option.map_none, Option.map_none]
    | some f =>
      obtain ⟨p, hprogram, hfunction⟩ := function?_eq_some.mp hf
      obtain ⟨layout, hprovides⟩ := h.provides home p hprogram
      obtain ⟨codes, -, hbody⟩ := hprovides.body i f hfunction
      rw [hbody, Option.map_some, Option.map_some]

end Agrees

end Interpreter

end MutationAnalysis
