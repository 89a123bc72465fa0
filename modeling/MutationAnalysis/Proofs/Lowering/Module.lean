/-
Compiled modules.

`CompiledProgram.Comes` says what a compiled program consists of, given the layout it was compiled
with; compiling succeeds exactly when there is such a layout and every function has a body.  What a
module imports follows: its globals are the addresses, the cells and, in instrumented code, the
offset, in this order, and its imported functions are the probes.

* `Program.exists_compile`: valid programs are compiled;
* `Program.comes_of_compile`: what a compiled program consists of.
-/
import MutationAnalysis.Lowering.Module
import MutationAnalysis.Proofs.Lowering.Code

namespace MutationAnalysis

open Wasm Lowering

namespace Lowering

variable {l : Layout} {index : Nat} {functions : List Function} {bodies : List Body}

theorem functionBodies_getElem? (h : functionBodies l index functions = .ok bodies) :
    bodies.length = functions.length ∧ ∀ (i : Nat) (f : Function), functions[i]? = some f →
      ∃ body, bodies[i]? = some body ∧ functionBody l (index + i) f = .ok body := by
  induction functions generalizing index bodies with
  | nil =>
    rw [functionBodies] at h
    obtain rfl := Except.ok.inj h
    simp
  | cons f rest ih =>
    rw [functionBodies, bind_eq_ok] at h
    obtain ⟨body, hbody, h⟩ := h
    obtain ⟨others, hothers, h⟩ := bind_eq_ok.mp h
    obtain rfl : body :: others = bodies := Except.ok.inj h
    obtain ⟨hlength, hget⟩ := ih hothers
    refine ⟨by rw [List.length_cons, List.length_cons, hlength], fun i g hg => ?_⟩
    cases i with
    | zero =>
      obtain rfl : f = g := by simpa using hg
      exact ⟨body, rfl, hbody⟩
    | succ i =>
      obtain ⟨body', hbody', hcode⟩ := hget i g (by simpa using hg)
      exact ⟨body', hbody', by rwa [Nat.add_assoc, Nat.add_comm 1] at hcode⟩

theorem exists_functionBodies (h : ∀ f ∈ functions, ∀ i, ∃ body, functionBody l i f = .ok body) :
    ∃ bodies, functionBodies l index functions = .ok bodies := by
  induction functions generalizing index with
  | nil => exact ⟨[], rfl⟩
  | cons f rest ih =>
    rw [List.forall_mem_cons] at h
    obtain ⟨body, hbody⟩ := h.1 index
    obtain ⟨others, hothers⟩ := ih h.2
    exact ⟨body :: others, bind_eq_ok.mpr ⟨body, hbody, bind_eq_ok.mpr ⟨others, hothers, rfl⟩⟩⟩

end Lowering

/-- What a program compiles to under a layout. -/
structure CompiledProgram.Comes (c : CompiledProgram) (p : Program) (moduleId : String)
    (probed : Bool) (minPages : Nat) (l : Layout) : Prop where
  layout : Layout.of p probed = .ok l
  bodies : functionBodies l 0 p.functions = .ok c.code.functions
  types : c.code.types = l.types
  imports : c.code.imports = Lowering.imports l moduleId minPages
  exports : c.code.exports = p.functions.zipIdx.map fun (f, i) => ⟨f.name, l.probes + i⟩
  moduleId : c.moduleId = moduleId
  defined : c.defined = p.functions.map (·.name)
  undefined : c.undefined = l.undefined
  cells : c.cells = l.cells
  constructors : c.constructors = p.constructors

variable {p : Program} {moduleId : String} {probed : Bool} {minPages : Nat} {c : CompiledProgram}

theorem Program.comes_of_compile (h : p.compile moduleId probed minPages = .ok c) :
    ∃ l, c.Comes p moduleId probed minPages l := by
  rw [Program.compile, bind_eq_ok] at h
  obtain ⟨l, hl, h⟩ := h
  obtain ⟨bodies, hbodies, h⟩ := bind_eq_ok.mp h
  obtain rfl := Except.ok.inj h
  exact ⟨l, hl, hbodies, rfl, rfl, rfl, rfl, rfl, rfl, rfl, rfl⟩

/-- Valid programs are compiled. -/
theorem Program.exists_compile (hp : p.IsValid) (moduleId : String) (probed : Bool)
    (minPages : Nat) : ∃ c, p.compile moduleId probed minPages = .ok c := by
  obtain ⟨l, hl⟩ := Layout.exists_of_isValid hp probed
  obtain ⟨bodies, hbodies⟩ := exists_functionBodies (l := l) fun f hf i =>
    exists_functionBody (Layout.describes_of hl) hp hf
  exact ⟨_, bind_eq_ok.mpr ⟨l, hl, bind_eq_ok.mpr ⟨bodies, hbodies, rfl⟩⟩⟩

namespace CompiledProgram.Comes

variable {l : Layout}

theorem describes (h : c.Comes p moduleId probed minPages l) : l.Describes p probed :=
  Layout.describes_of h.layout

theorem importedGlobals (h : c.Comes p moduleId probed minPages l) :
    c.code.importedGlobals =
      l.undefined.map (fun u => ⟨SymbolName.addresses, u.1, .global false⟩)
        ++ l.cells.map (fun cell => ⟨SymbolName.environment, cell, .global true⟩)
        ++ if probed then
            [⟨SymbolName.environment, SymbolName.indexOffset moduleId, .global false⟩]
          else [] := by
  rw [Module.importedGlobals, h.imports, Lowering.imports, h.describes.isInstrumented]
  simp only [List.filter_append, List.filter_map]
  cases probed <;> simp [Function.comp_def]

theorem importedFunctions (h : c.Comes p moduleId probed minPages l) :
    c.code.importedFunctions =
      if probed then [l.typeIndex probeType, l.typeIndex probeType] else [] := by
  rw [Module.importedFunctions, h.imports, Lowering.imports, h.describes.isInstrumented]
  simp only [List.filterMap_append, List.filterMap_map]
  cases probed <;> simp

theorem importedFunctions_length (h : c.Comes p moduleId probed minPages l) :
    c.code.importedFunctions.length = l.probes := by
  rw [h.importedFunctions, Layout.probes, h.describes.isInstrumented]
  cases probed <;> rfl

theorem importedGlobals_length (h : c.Comes p moduleId probed minPages l) :
    c.code.importedGlobals.length = l.offsetGlobal + if probed then 1 else 0 := by
  rw [h.importedGlobals, Layout.offsetGlobal]
  cases probed <;> simp [Nat.add_assoc]

/-- The body of a function, and the codes of its blocks. -/
theorem body (h : c.Comes p moduleId probed minPages l) {i : Nat} {f : Function}
    (hf : p.functions[i]? = some f) :
    ∃ codes, BlocksEmit l i (counterLocal f) f.blocks codes ∧
      c.code.functions[i]? = some (bodyOf l i f codes) := by
  obtain ⟨body, hbody, hcode⟩ := (functionBodies_getElem? h.bodies).2 i f hf
  rw [Nat.zero_add] at hcode
  obtain ⟨codes, hcodes, rfl⟩ := functionBody_eq_ok.mp hcode
  exact ⟨codes, hcodes, hbody⟩

theorem functions_length (h : c.Comes p moduleId probed minPages l) :
    c.code.functions.length = p.functions.length :=
  (functionBodies_getElem? h.bodies).1

/-- What the module exports under the name of a function is that function, if names are distinct. -/
theorem find?_export (h : c.Comes p moduleId probed minPages l)
    (hnames : (p.functions.map (·.name)).Nodup) {i : Nat} {f : Function}
    (hf : p.functions[i]? = some f) :
    c.code.exports.find? (·.name == f.name) = some ⟨f.name, l.probes + i⟩ := by
  cases hfind : c.code.exports.find? (·.name == f.name) with
  | none =>
    have hexport : ⟨f.name, l.probes + i⟩ ∈ c.code.exports := by
      rw [h.exports]
      exact List.mem_map.mpr ⟨(f, i), List.mk_mem_zipIdx_iff_getElem?.mpr hf, rfl⟩
    have hother := List.find?_eq_none.mp hfind _ hexport
    simp at hother
  | some e =>
    have hexport := List.mem_of_find?_eq_some hfind
    rw [h.exports] at hexport
    obtain ⟨⟨g, j⟩, hg, rfl⟩ := List.mem_map.mp hexport
    have hname : g.name = f.name := by simpa using List.find?_some hfind
    obtain rfl := Program.index_unique hnames (List.mk_mem_zipIdx_iff_getElem?.mp hg) hf hname
    dsimp only
    rw [hname]

/-- Every body of the module is that of a function. -/
theorem exists_function (h : c.Comes p moduleId probed minPages l) {i : Nat} {body : Body}
    (hbody : c.code.functions[i]? = some body) :
    ∃ f codes, p.functions[i]? = some f ∧ BlocksEmit l i (counterLocal f) f.blocks codes ∧
      body = bodyOf l i f codes := by
  obtain ⟨hi, -⟩ := List.getElem?_eq_some_iff.mp hbody
  rw [h.functions_length] at hi
  obtain ⟨codes, hcodes, hget⟩ := h.body (List.getElem?_eq_getElem hi)
  rw [hbody] at hget
  exact ⟨_, codes, List.getElem?_eq_getElem hi, hcodes, Option.some.inj hget⟩

end CompiledProgram.Comes

end MutationAnalysis
