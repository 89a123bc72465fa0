/-
The environment of a linked image.

An image that is linked from compiled programs runs them: `Image.environment` reads off what the
programs find there, and the image realizes it (`IsLinked.realizes`).  A name that a program calls
and does not define leads to the function that another program defines under it, or else to one of
the host; a cell holds what the loader keeps in it.

* `Image.IsLinked.realizes`: the image realizes its environment;
* `Image.IsLinked.address_leadsTo`, `Image.IsLinked.cell_eq`: what is found under the names;
* `Image.IsLinked.type?_of_represent`: the types of the functions.
-/
import MutationAnalysis.Proofs.Image.Linking
import MutationAnalysis.Proofs.Image.Objects
import MutationAnalysis.Proofs.Interpreter.Realization

namespace MutationAnalysis

open Wasm Lowering Interpreter

/-! ### Objects -/

/-- What a program imports that is compiled without probes. -/
theorem CompiledProgram.Comes.imports_plain {c : CompiledProgram} {p : Program} {moduleId : String}
    {minPages : Nat} {l : Layout} (h : c.Comes p moduleId false minPages l) : c.code.imports =
    [⟨SymbolName.environment, SymbolName.memory, .memory minPages⟩,
      ⟨SymbolName.environment, SymbolName.table, .table⟩]
      ++ p.undefinedSymbols.map (fun name => ⟨SymbolName.addresses, name, .global false⟩)
      ++ p.cells.map (fun cell => ⟨SymbolName.environment, cell, .global true⟩) := by
  rw [h.imports, Lowering.imports, h.describes.isInstrumented, h.describes.cells,
    ← h.describes.undefined, List.map_map]
  simp [Function.comp_def]

namespace Object

variable {p : Program} {moduleId : String} {o : Object}

/-- The object of a program, compiled without probes. -/
structure IsOf (o : Object) (p : Program) (l : Layout) : Prop where
  comes : ∃ c moduleId, p.compile moduleId false 1 = .ok c ∧ c.Comes p moduleId false 1 l ∧
    c.code = o.code
  isValid : o.code.isValid = true
  defined : o.defined = p.functions.map (·.name)
  undefined : o.undefined = l.undefined
  constructors : o.constructors = p.constructors

theorem isOf_of_compile (h : compile p moduleId false = .ok o) : ∃ l, o.IsOf p l := by
  obtain ⟨c, hc, hvalid, rfl⟩ := compile_eq_ok.mp h
  obtain ⟨l, hl⟩ := Program.comes_of_compile hc
  exact ⟨l, ⟨c, moduleId, hc, hl, rfl⟩, hvalid, hl.defined, hl.undefined, hl.constructors⟩

namespace IsOf

variable {l : Layout} (h : o.IsOf p l)

include h

theorem describes : l.Describes p false := by
  obtain ⟨c, moduleId, -, hc, -⟩ := h.comes
  exact hc.describes

theorem imports : o.code.imports =
    [⟨SymbolName.environment, SymbolName.memory, .memory 1⟩,
      ⟨SymbolName.environment, SymbolName.table, .table⟩]
      ++ p.undefinedSymbols.map (fun name => ⟨SymbolName.addresses, name, .global false⟩)
      ++ p.cells.map (fun cell => ⟨SymbolName.environment, cell, .global true⟩) := by
  obtain ⟨c, moduleId, -, hc, hcode⟩ := h.comes
  rw [← hcode]
  exact hc.imports_plain

theorem importedGlobals : o.code.importedGlobals =
    p.undefinedSymbols.map (fun name => ⟨SymbolName.addresses, name, .global false⟩)
      ++ p.cells.map (fun cell => ⟨SymbolName.environment, cell, .global true⟩) := by
  obtain ⟨c, moduleId, -, hc, hcode⟩ := h.comes
  rw [← hcode, hc.importedGlobals, hc.describes.cells, ← hc.describes.undefined, List.map_map]
  simp [Function.comp_def]

/-- An object of a program says of the program what linking needs to know. -/
theorem represents : ∃ moduleId, o.Represents p moduleId false l := by
  obtain ⟨c, moduleId, -, hc, hcode⟩ := h.comes
  have hrepresents := represents_of_comes hc
  exact ⟨moduleId, hrepresents.describes, hcode ▸ hrepresents.imports, h.defined, h.undefined,
    h.constructors, hcode ▸ hrepresents.body⟩

/-- An object expects the signature of the program for what the program calls. -/
theorem expectedSignature {name : String} {s : Signature} :
    o.expectedSignature name = some s ↔ name ∈ p.undefinedSymbols ∧ p.signature? name = some s := by
  obtain ⟨moduleId, hrepresents⟩ := h.represents
  exact hrepresents.expectedSignature

end IsOf

end Object

/-! ### Globals -/

namespace Linking

variable {symbols : List (String × Nat)} {natives : List Native} {resolve : Resolver} {o : Object}
  {imports : List Import} {bindings : List Binding}

theorem boundFunctions_eq_nil (h : List.Forall₂ (Binds symbols natives resolve o) imports bindings)
    (hnone : ∀ i ∈ imports, ∀ type, i.kind ≠ .function type) :
    bindings.filterMap boundFunction? = [] := by
  induction h with
  | nil => rfl
  | @cons i b _ _ hb _ ih =>
    rw [List.forall_mem_cons] at hnone
    rw [List.filterMap_cons, ih hnone.2]
    cases hb with
    | function hkind => exact absurd hkind (hnone.1 _)
    | memory | table | address | cell | constant => rfl

/-- The globals of an instance are what the imported globals of its module are bound to. -/
theorem boundGlobals (h : List.Forall₂ (Binds symbols natives resolve o) imports bindings) :
    List.Forall₂ (fun i g => ∃ b, Binds symbols natives resolve o i b ∧ boundGlobal? b = some g)
      (imports.filter fun i => match i.kind with
        | .global _ => true
        | _ => false)
      (bindings.filterMap boundGlobal?) := by
  induction h with
  | nil => exact .nil
  | @cons i b _ _ hb _ ih =>
    rw [List.filter_cons, List.filterMap_cons]
    cases hb with
    | memory hkind | table hkind | function hkind =>
      simp only [hkind]
      exact ih
    | address hkind hspace ha hlt =>
      simp only [hkind]
      exact .cons ⟨_, .address hkind hspace ha hlt, rfl⟩ ih
    | cell hkind hspace hc =>
      simp only [hkind]
      exact .cons ⟨_, .cell hkind hspace hc, rfl⟩ ih
    | constant hkind hspace =>
      simp only [hkind]
      exact .cons ⟨_, .constant hkind hspace, rfl⟩ ih

end Linking

/-! ### Environments -/

/-- The host's functions give back what their signatures say. -/
theorem Native.host_isTyped : Native.host.IsTyped := by
  intro n arguments memory state results memory' state' hlength hcall
  replace hcall : n.call arguments memory state = .returned results memory' state' := hcall
  cases n <;> rcases arguments with _ | ⟨a, _ | ⟨b, _ | ⟨c, _ | ⟨d, rest⟩⟩⟩⟩ <;> cases hcall <;> rfl

namespace Image

open Linking

/-- An image with the cells of its loader. -/
def linkage (image : Image) (cells : Array Word) (maxDepth : Nat) : Linkage Native HostState :=
  ⟨Native.host, image.instances, image.table, cells, maxDepth⟩

/-- What programs find in an image that is linked from them. -/
def environment (image : Image) (programs : List Program) (cells : Array Word) (maxDepth : Nat) :
    Environment Native HostState where
  host := Native.host
  programs := programs
  table := image.table
  address home name := ((programs[home]?).bind fun p =>
    (image.linkage cells maxDepth).global? home (p.undefinedSymbols.idxOf name)).getD 0
  cell home name := ((programs[home]?).bind fun p =>
    (image.linkage cells maxDepth).global? home
      (p.undefinedSymbols.length + p.cells.idxOf name)).getD 0
  probes _ := none
  maxDepth := maxDepth

namespace IsLinked

variable {pages maxDepth home : Nat} {objects : List Object} {resolve : Resolver} {image : Image}
  {natives : List Native} {cells : Array Word} {programs : List Program} {name : String}
  {p : Program}

/-- The resolver leads to no addresses, and to cells that there are. -/
structure Suits (resolve : Resolver) (cells : Array Word) : Prop where
  noAddress : ∀ name a, resolve name ≠ some (.address a)
  cell : ∀ name c, resolve name = some (.cell c) → c.index < cells.size

section

variable (h : IsLinked pages objects resolve image natives)
  (ho : List.Forall₂ (fun p o => ∃ l, Object.IsOf o p l) programs objects)

include h ho

/-- The instance of a program. -/
theorem exists_instance (hp : programs[home]? = some p) :
    ∃ o l inst, objects[home]? = some o ∧ o.IsOf p l ∧ image.instances[home]? = some inst ∧
      inst.types = o.code.types.toArray ∧ inst.bodies = o.code.functions.toArray ∧
      inst.functions
        = ((List.range o.code.functions.length).map (FuncRef.defined home)).toArray ∧
      List.Forall₂ (fun i g => ∃ b, Binds image.symbols natives resolve o i b ∧
        boundGlobal? b = some g) o.code.importedGlobals inst.globals.toList := by
  obtain ⟨o, hobject, l, hof⟩ := exists_right_of_getElem? ho hp
  obtain ⟨s, -, hlinks⟩ := h.links
  obtain ⟨bindings, hinst, hbinds⟩ := hlinks.bound home o hobject
  rw [Array.getElem?_toList, Nat.zero_add] at hinst
  refine ⟨o, l, _, hobject, hof, hinst, rfl, rfl, ?_, ?_⟩
  · have hnone : bindings.filterMap boundFunction? = [] := by
      refine boundFunctions_eq_nil hbinds fun i hi type => ?_
      rw [hof.imports] at hi
      simp only [List.mem_append, List.mem_cons, List.not_mem_nil, or_false, List.mem_map] at hi
      rcases hi with ((rfl | rfl) | ⟨_, -, rfl⟩) | ⟨_, -, rfl⟩ <;> exact ImportKind.noConfusion
    show (bindings.filterMap boundFunction? ++ _).toArray = _
    rw [hnone, List.nil_append]
  · exact boundGlobals hbinds

/-- The address under which a program finds a function that it calls is that of the
function to which the name leads. -/
theorem exists_address (hsuits : Suits resolve cells) (hp : programs[home]? = some p)
    (hname : name ∈ p.undefinedSymbols) (maxDepth : Nat) :
    ∃ o l a ref, objects[home]? = some o ∧ o.IsOf p l ∧
      (image.linkage cells maxDepth).global? home (p.undefinedSymbols.idxOf name)
        = some (UInt32.ofNat a) ∧ a < UInt32.size ∧
      HasAddress image.symbols natives resolve o name a ∧
      LeadsTo objects resolve name ref ∧ image.function? a = some ref := by
  obtain ⟨o, l, inst, hobject, hof, hinst, -, -, -, hglobals⟩ := h.exists_instance ho hp
  have himport : o.code.importedGlobals[p.undefinedSymbols.idxOf name]?
      = some ⟨SymbolName.addresses, name, .global false⟩ := by
    rw [hof.importedGlobals, List.getElem?_append_left (by
      rw [List.length_map]
      exact List.idxOf_lt_length_of_mem hname), List.getElem?_map, List.getElem?_idxOf hname]
    rfl
  obtain ⟨g, hg, b, hb, hbound⟩ := exists_right_of_getElem? hglobals himport
  rw [Array.getElem?_toList] at hg
  cases hb with
  | memory hkind | table hkind | function hkind | cell hkind => cases hkind
  | constant _ hspace => exact absurd rfl hspace
  | @address _ a _ _ ha hlt =>
    obtain rfl := Option.some.inj hbound
    obtain ⟨ref, hleads, hfunction⟩ := h.leadsTo (hsuits.noAddress name) ha
    refine ⟨o, l, a, ref, hobject, hof, ?_, hlt, ha, hleads, hfunction⟩
    simp only [Linkage.global?, linkage, hinst, Option.bind_eq_bind, Option.bind_some, hg]

/-- A cell of a program holds what the loader keeps in it. -/
theorem exists_cell (hsuits : Suits resolve cells) (hp : programs[home]? = some p)
    (hname : name ∈ p.cells) (maxDepth : Nat) :
    ∃ c, resolve name = some (.cell c) ∧
      (image.linkage cells maxDepth).global? home
        (p.undefinedSymbols.length + p.cells.idxOf name) = some (cells.getD c.index 0) := by
  obtain ⟨o, l, inst, -, hof, hinst, -, -, -, hglobals⟩ := h.exists_instance ho hp
  have himport : o.code.importedGlobals[p.undefinedSymbols.length + p.cells.idxOf name]?
      = some ⟨SymbolName.environment, name, .global true⟩ := by
    rw [hof.importedGlobals, List.getElem?_append_right (by rw [List.length_map]; omega),
      List.length_map, Nat.add_sub_cancel_left, List.getElem?_map, List.getElem?_idxOf hname]
    rfl
  obtain ⟨g, hg, b, hb, hbound⟩ := exists_right_of_getElem? hglobals himport
  rw [Array.getElem?_toList] at hg
  cases hb with
  | memory hkind | table hkind | function hkind | constant hkind => cases hkind
  | address _ hspace =>
    have hne : SymbolName.environment ≠ SymbolName.addresses := by decide
    exact absurd hspace hne
  | @cell c _ _ hc =>
    obtain rfl := Option.some.inj hbound
    refine ⟨c, hc, ?_⟩
    have hlt := hsuits.cell name c hc
    simp only [Linkage.global?, linkage, hinst, Option.bind_eq_bind, Option.bind_some, hg,
      Array.getD_eq_getD_getElem?, Array.getElem?_eq_getElem hlt, Option.getD_some]

/-- A linked image realizes the environment that is read off it. -/
theorem realizes (hsuits : Suits resolve cells) :
    Realizes (image.linkage cells maxDepth) (image.environment programs cells maxDepth) where
  host := rfl
  table := rfl
  maxDepth := rfl
  runs := by
    intro home p hp
    replace hp : programs[home]? = some p := hp
    obtain ⟨o, l, inst, hobject, hof, hinst, htypes, hbodies, hfunctions, -⟩ :=
      h.exists_instance ho hp
    obtain ⟨c, moduleId, hcompile, hc, hcode⟩ := hof.comes
    rw [← hcode] at htypes hbodies hfunctions
    refine ⟨moduleId, 1, c, inst, hcompile, hinst, htypes, hbodies, hfunctions, fun g i hi => ?_⟩
    rw [hcode, hof.importedGlobals] at hi
    -- addresses come first among the globals, and cells after them
    by_cases hlt : g < p.undefinedSymbols.length
    · rw [List.getElem?_append_left (by rwa [List.length_map]), List.getElem?_map] at hi
      obtain ⟨name, hname, rfl⟩ := Option.map_eq_some_iff.mp hi
      have hidx : p.undefinedSymbols.idxOf name = g := idxOf_sortedNames hname
      obtain ⟨_, _, a, _, _, _, ha, -⟩ :=
        h.exists_address ho hsuits hp (List.mem_of_getElem? hname) maxDepth
      rw [hidx] at ha
      simp [Environment.globalValue, environment, hp, hidx, ha]
    · rw [List.getElem?_append_right (by rw [List.length_map]; omega), List.length_map,
        List.getElem?_map] at hi
      obtain ⟨name, hname, rfl⟩ := Option.map_eq_some_iff.mp hi
      have hidx : p.cells.idxOf name = g - p.undefinedSymbols.length := idxOf_sortedNames hname
      have hsum : p.undefinedSymbols.length + p.cells.idxOf name = g := by omega
      obtain ⟨_, -, hcell⟩ :=
        h.exists_cell ho hsuits hp (List.mem_of_getElem? hname) maxDepth
      rw [hsum] at hcell
      simp [Environment.globalValue, environment, hp, hsum, hcell]
  only := by
    intro home hnone
    replace hnone : programs[home]? = none := hnone
    obtain ⟨s, -, hlinks⟩ := h.links
    show image.instances[home]? = none
    rw [← Array.getElem?_toList, List.getElem?_eq_none_iff, hlinks.length_eq, ← ho.length_eq]
    exact List.getElem?_eq_none_iff.mp hnone

theorem address_leadsTo (hsuits : Suits resolve cells) (hp : programs[home]? = some p)
    (hname : name ∈ p.undefinedSymbols) (maxDepth : Nat) :
    ∃ ref, LeadsTo objects resolve name ref ∧
      image.table[((image.environment programs cells maxDepth).address home name).toNat]?
        = some (some ref) := by
  obtain ⟨_, _, a, ref, -, -, ha, hlt, -, hleads, hfunction⟩ :=
    h.exists_address ho hsuits hp hname maxDepth
  refine ⟨ref, hleads, ?_⟩
  have haddress : (image.environment programs cells maxDepth).address home name
      = UInt32.ofNat a := by
    simp [environment, hp, ha]
  rw [haddress, UInt32.toNat_ofNat_of_lt' hlt]
  exact Option.join_eq_some_iff.mp hfunction

theorem cell_eq (hsuits : Suits resolve cells) (hp : programs[home]? = some p)
    (hname : name ∈ p.cells) (maxDepth : Nat) :
    ∃ c, resolve name = some (.cell c) ∧
      (image.environment programs cells maxDepth).cell home name = cells.getD c.index 0 := by
  obtain ⟨c, hc, hcell⟩ := h.exists_cell ho hsuits hp hname maxDepth
  exact ⟨c, hc, by simp [environment, hp, hcell]⟩

/-- What execution needs to know of a linked image. -/
theorem agrees (hsuits : Suits resolve cells)
    (hprograms : ∀ p ∈ programs, p.IsValid ∧ p.SeparatesCells) (maxDepth : Nat) :
    Agrees (image.linkage cells maxDepth) (image.environment programs cells maxDepth) :=
  (h.realizes ho hsuits).agrees hprograms Native.host_isTyped fun _ _ hprobes => nomatch hprobes

end

section

variable {probed : Bool} {programs : List Program} {objects : List Object} {image : Image}
  {home i : Nat} {p : Program} {f : Function} (h : IsLinked pages objects resolve image natives)
  (ho : Represent probed programs objects)

include h ho

/-- A function of a program has an address, where the function is. -/
theorem exists_address?_of_function (hp : programs[home]? = some p)
    (hf : p.functions[i]? = some f) :
    ∃ a, image.address? f.name = some a ∧ image.function? a = some (.defined home i) := by
  obtain ⟨o, hobject, hdefined⟩ := exists_defined ho hp hf
  exact h.placed hobject hdefined

/-- At the address of a name is a function of a program. -/
theorem exists_function_of_address? {name : String} {a : Nat} (ha : image.address? name = some a) :
    ∃ (home i : Nat) (p : Program) (f : Function), programs[home]? = some p ∧
      p.functions[i]? = some f ∧ f.name = name ∧ image.function? a = some (.defined home i) := by
  obtain ⟨home, i, o, hobject, hi, hfunction⟩ := h.exists_of_address? ha
  obtain ⟨p, f, hp, hf, hname⟩ := exists_function_of_defined ho hobject hi
  exact ⟨home, i, p, f, hp, hf, hname, hfunction⟩

/-- The type of a function of a linked image is that of its signature. -/
theorem type?_of_represent (hp : programs[home]? = some p) (hf : p.functions[i]? = some f)
    (cells : Array Word) (maxDepth : Nat) :
    (image.linkage cells maxDepth).type? (.defined home i) = some (funcType f.signature) := by
  obtain ⟨o, hobject, moduleId, l, hl⟩ := exists_right_of_getElem? ho hp
  obtain ⟨s, -, hlinks⟩ := h.links
  obtain ⟨bindings, hinst, -⟩ := hlinks.bound home o hobject
  rw [Array.getElem?_toList, Nat.zero_add] at hinst
  obtain ⟨body, hbody, htype⟩ := hl.body i f hf
  have hbodies : (instantiate home o bindings).bodies[i]? = some body := by
    rw [instantiate, List.getElem?_toArray, hbody]
  have htypes : (instantiate home o bindings).types[body.type]? = some (funcType f.signature) := by
    rw [instantiate, List.getElem?_toArray, htype]
  simp only [Linkage.type?, Linkage.body?, linkage, hinst, Option.bind_eq_bind, Option.bind_some,
    hbodies, htypes, Option.map_some, Option.pure_def]

end

end IsLinked

/-- What a name leads to has a type where the programs are. -/
theorem LeadsTo.type?_isSome {probed : Bool} {programs : List Program} {objects : List Object}
    {name : String} {ref : FuncRef Native} (h : LeadsTo objects resolve name ref)
    (ho : Represent probed programs objects) {env : Environment Native HostState}
    (hprograms : env.programs = programs) : (env.type? ref).isSome := by
  cases h with
  | native => rfl
  | @defined home i o hobject hi =>
    obtain ⟨p, f, hp, hf, -⟩ := exists_function_of_defined ho hobject hi
    have hfunction : env.function? home i = some f := function?_eq_some.mpr ⟨p, hprograms ▸ hp, hf⟩
    rw [Environment.type?, hfunction]
    rfl

end Image

end MutationAnalysis
