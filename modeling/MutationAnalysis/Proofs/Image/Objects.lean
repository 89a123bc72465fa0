/-
Objects of programs.

Whether or not it is instrumented, the object of a program has a body for each of the program's
functions, of the function's type, and asks for what the program calls and does not define with the
signatures of the program (`Object.Represents`).

* `Object.compile_eq_ok`, `Object.exists_represents`: what compiling a program gives;
* `Object.Represents.expectedSignature`: the signatures that an object expects;
* `Image.names_of_represent`: the names that the objects of programs define.
-/
import MutationAnalysis.Image.Object
import MutationAnalysis.Proofs.Lowering.Module

namespace MutationAnalysis

open Wasm Lowering

namespace Object

variable {p : Program} {moduleId : String} {probed : Bool} {o : Object} {l : Layout}

/-- A program that compiles to a valid module has an object. -/
theorem compileWith_eq_ok {minPages : Nat} : compileWith p moduleId probed minPages = .ok o ↔
    ∃ c, p.compile moduleId probed minPages = .ok c ∧ c.code.isValid = true ∧
      o = ⟨c.moduleId, c.code, c.defined, c.undefined, c.constructors, c.isInstrumented⟩ := by
  rw [compileWith]
  cases hc : p.compile moduleId probed minPages with
  | error e => simp
  | ok c =>
    simp only [ofCompiled, Except.ok.injEq, exists_eq_left']
    split
    · rename_i hvalid
      rw [Except.ok.injEq, eq_comm]
      exact ⟨fun h => ⟨hvalid, h⟩, fun h => h.2⟩
    · rename_i hvalid
      exact iff_of_false (by simp) fun h => hvalid h.1

theorem compile_eq_ok : compile p moduleId probed = .ok o ↔
    ∃ c, p.compile moduleId probed 1 = .ok c ∧ c.code.isValid = true ∧
      o = ⟨c.moduleId, c.code, c.defined, c.undefined, c.constructors, c.isInstrumented⟩ :=
  compileWith_eq_ok

/-- What linking finds in the object of a program. -/
structure Represents (o : Object) (p : Program) (moduleId : String) (probed : Bool) (l : Layout) :
    Prop where
  describes : l.Describes p probed
  imports : o.code.imports = Lowering.imports l moduleId 1
  defined : o.defined = p.functions.map (·.name)
  undefined : o.undefined = l.undefined
  constructors : o.constructors = p.constructors
  body : ∀ (i : Nat) (f : Function), p.functions[i]? = some f → ∃ body,
    o.code.functions[i]? = some body ∧ o.code.types[body.type]? = some (funcType f.signature)

theorem represents_of_comes {c : CompiledProgram} (h : c.Comes p moduleId probed 1 l) :
    Represents ⟨c.moduleId, c.code, c.defined, c.undefined, c.constructors, c.isInstrumented⟩ p
      moduleId probed l where
  describes := h.describes
  imports := h.imports
  defined := h.defined
  undefined := h.undefined
  constructors := h.constructors
  body := fun i f hf => by
    obtain ⟨codes, -, hbody⟩ := h.body hf
    refine ⟨_, hbody, ?_⟩
    show c.code.types[l.typeIndex (funcType f.signature)]? = _
    rw [h.types]
    exact Layout.Describes.types_typeIndex (h.describes.funcType_mem (List.mem_of_getElem? hf))

theorem exists_represents (h : compile p moduleId probed = .ok o) :
    ∃ l, o.Represents p moduleId probed l := by
  obtain ⟨c, hc, -, rfl⟩ := compile_eq_ok.mp h
  obtain ⟨l, hl⟩ := Program.comes_of_compile hc
  exact ⟨l, represents_of_comes hl⟩

namespace Represents

variable (h : o.Represents p moduleId probed l)

include h

/-- An object expects the signature of the program for what the program calls. -/
theorem expectedSignature {name : String} {s : Signature} :
    o.expectedSignature name = some s ↔ name ∈ p.undefinedSymbols ∧ p.signature? name = some s := by
  have hd := h.describes
  rw [Object.expectedSignature, h.undefined, Option.map_eq_some_iff]
  constructor
  · rintro ⟨u, hu, rfl⟩
    have hmem := List.mem_of_find?_eq_some hu
    obtain rfl : u.1 = name := by simpa using List.find?_some hu
    refine ⟨?_, hd.signatures u hmem⟩
    rw [← hd.undefined]
    exact List.mem_map_of_mem hmem
  · rintro ⟨hname, hs⟩
    rw [← hd.undefined] at hname
    obtain ⟨u, hu, rfl⟩ := List.mem_map.mp hname
    cases hfind : l.undefined.find? (·.1 == u.1) with
    | none => exact absurd (List.find?_eq_none.mp hfind u hu) (by simp)
    | some v =>
      have hname : v.1 = u.1 := by simpa using List.find?_some hfind
      have hv := hd.signatures v (List.mem_of_find?_eq_some hfind)
      rw [hname, hs] at hv
      exact ⟨v, rfl, (Option.some.inj hv).symm⟩

/-- An object imports the addresses of what the program calls and does not define. -/
theorem address_mem_imports {name : String} (hname : name ∈ p.undefinedSymbols) :
    (⟨SymbolName.addresses, name, .global false⟩ : Import) ∈ o.code.imports := by
  rw [← h.describes.undefined] at hname
  obtain ⟨u, hu, rfl⟩ := List.mem_map.mp hname
  rw [h.imports]
  exact List.mem_append_left _ (List.mem_append_left _ (List.mem_append_right _
    (List.mem_map.mpr ⟨u, hu, rfl⟩)))

/-- An object imports the cells that the program calls through. -/
theorem cell_mem_imports {name : String} (hname : name ∈ p.cells) :
    (⟨SymbolName.environment, name, .global true⟩ : Import) ∈ o.code.imports := by
  rw [← h.describes.cells] at hname
  rw [h.imports]
  exact List.mem_append_left _ (List.mem_append_right _ (List.mem_map.mpr ⟨name, hname, rfl⟩))

/-- An object imports a memory of at least one page. -/
theorem memory_mem_imports :
    (⟨SymbolName.environment, SymbolName.memory, .memory 1⟩ : Import) ∈ o.code.imports := by
  rw [h.imports]
  exact List.mem_append_left _ (List.mem_append_left _ (List.mem_append_left _ List.mem_cons_self))

end Represents

end Object

namespace Image

/-- The objects of programs, instrumented or not. -/
abbrev Represent (probed : Bool) (programs : List Program) (objects : List Object) : Prop :=
  List.Forall₂ (fun p o => ∃ moduleId l, Object.Represents o p moduleId probed l) programs objects

theorem names_of_represent {probed : Bool} {programs : List Program} {objects : List Object}
    (h : Represent probed programs objects) :
    objects.flatMap (·.defined) = programs.flatMap Program.names := by
  induction h with
  | nil => rfl
  | cons ho _ ih =>
    obtain ⟨moduleId, l, hl⟩ := ho
    rw [List.flatMap_cons, List.flatMap_cons, ih, hl.defined]
    rfl

section

variable {probed : Bool} {programs : List Program} {objects : List Object} {home i : Nat}
  (h : Represent probed programs objects)

include h

/-- What a program defines, its object does. -/
theorem exists_defined {p : Program} {f : Function} (hp : programs[home]? = some p)
    (hf : p.functions[i]? = some f) :
    ∃ o, objects[home]? = some o ∧ o.defined[i]? = some f.name := by
  obtain ⟨o, ho, _, _, hl⟩ := exists_right_of_getElem? h hp
  refine ⟨o, ho, ?_⟩
  rw [hl.defined, List.getElem?_map, hf]
  rfl

/-- What an object defines, its program does. -/
theorem exists_function_of_defined {o : Object} {name : String} (ho : objects[home]? = some o)
    (hi : o.defined[i]? = some name) :
    ∃ p f, programs[home]? = some p ∧ p.functions[i]? = some f ∧ f.name = name := by
  obtain ⟨p, hp, _, _, hl⟩ := exists_right_of_getElem? h.flip ho
  rw [hl.defined, List.getElem?_map, Option.map_eq_some_iff] at hi
  obtain ⟨f, hf, hname⟩ := hi
  exact ⟨p, f, hp, hf, hname⟩

end

end Image

end MutationAnalysis
