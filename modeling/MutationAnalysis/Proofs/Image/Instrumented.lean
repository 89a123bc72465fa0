/-
Images of instrumented programs.

The object of an instrumented program imports what the plain one does, and after that the two probes
and the number of the module's first function.  None of these takes an address.  So the instrumented
objects are linked as the plain ones are, up to their instances: the same functions stand at the
same addresses, and where linking fails it does so with the same error.

* `Object.exists_instrumented`, `Object.exists_plain`: a program that compiles without probes
  compiles with them, and the other way round;
* `Object.Instruments.imports_eq_append`: what an instrumented object imports in addition;
* `Linking.bindImports_instrumented`: what that is bound to;
* `Image.link_instrumented`: the image that instrumented objects are linked to;
* `Image.IsLinked.realizes_instrumented`: the image runs the programs with probes.
-/
import MutationAnalysis.Proofs.Image.Realization
import MutationAnalysis.Proofs.Lowering.Locals
import MutationAnalysis.Proofs.Program.Names

namespace MutationAnalysis

open Wasm Lowering Interpreter

/-! ### Objects -/

theorem Lowering.Layout.of_instrumented {p : Program} {l l' : Layout}
    (h : Layout.of p false = .ok l)
    (h' : Layout.of p true = .ok l') : l'.undefined = l.undefined ∧ l'.cells = l.cells := by
  rw [Layout.of, bind_eq_ok] at h h'
  obtain ⟨undefined, hundefined, h⟩ := h
  obtain ⟨undefined', hundefined', h'⟩ := h'
  obtain rfl := Except.ok.inj (hundefined.symm.trans hundefined')
  obtain rfl := Except.ok.inj h
  obtain rfl := Except.ok.inj h'
  exact ⟨rfl, rfl⟩

namespace Object

/-- What an instrumented object imports in addition, where the probes
are of a type of that number. -/
def probeImports (type : Nat) (moduleId : String) : List Import :=
  [⟨SymbolName.environment, SymbolName.enterFunction, .function type⟩,
    ⟨SymbolName.environment, SymbolName.leaveFunction, .function type⟩,
    ⟨SymbolName.environment, SymbolName.indexOffset moduleId, .global false⟩]

theorem imports_of_instrumented {p : Program} {moduleId : String} {c c' : CompiledProgram}
    {l l' : Layout} (hc : c.Comes p moduleId false 1 l) (hc' : c'.Comes p moduleId true 1 l') :
    c'.code.imports = c.code.imports ++ probeImports (l'.typeIndex probeType) moduleId := by
  obtain ⟨hundefined, hcells⟩ := Layout.of_instrumented hc.layout hc'.layout
  rw [hc.imports, hc'.imports, Lowering.imports, Lowering.imports, hc.describes.isInstrumented,
    hc'.describes.isInstrumented, hundefined, hcells, if_pos rfl, if_neg (by simp), List.append_nil]
  rfl

section

variable {p : Program} {moduleId : String} {b b' : Bool} {c c' : CompiledProgram} {l l' : Layout}

/-- With probes or without, the module of a program exports the same names. -/
theorem exportNames_of_comes (hc : c.Comes p moduleId b 1 l) (hc' : c'.Comes p moduleId b' 1 l')
    (hlimits : c.code.WithinLimits) :
    ∀ x ∈ c'.code.exports, x.name.utf8ByteSize ≤ maxNameBytes := by
  intro x hx
  rw [hc'.exports] at hx
  obtain ⟨⟨f, i⟩, hmem, rfl⟩ := List.mem_map.mp hx
  refine hlimits.exportNames ⟨f.name, l.probes + i⟩ ?_
  rw [hc.exports]
  exact List.mem_map.mpr ⟨(f, i), hmem, rfl⟩

/-- With probes or without, functions have the same locals. -/
theorem locals_of_comes (hc : c.Comes p moduleId b 1 l) (hc' : c'.Comes p moduleId b' 1 l')
    (hlimits : c.code.WithinLimits) : ∀ body ∈ c'.code.functions, ∀ t,
      c'.code.types[body.type]? = some t → t.params + body.locals ≤ maxLocals := by
  intro body hbody t ht
  obtain ⟨i, hi⟩ := List.mem_iff_getElem?.mp hbody
  obtain ⟨f, codes, hf, -, rfl⟩ := hc'.exists_function hi
  have hmem := List.mem_of_getElem? hf
  rw [hc'.types] at ht
  obtain rfl := Option.some.inj
    ((Layout.Describes.types_typeIndex (hc'.describes.funcType_mem hmem)).symm.trans ht)
  obtain ⟨codes', -, hbody'⟩ := hc.body hf
  refine hlimits.locals _ (List.mem_of_getElem? hbody') _ ?_
  rw [hc.types]
  exact Layout.Describes.types_typeIndex (hc.describes.funcType_mem hmem)

end

/-- A program that compiles without probes compiles with them, if the name of
its offset is not too long. -/
theorem exists_instrumented {p : Program} {moduleId : String} {o : Object} (hp : p.IsValid)
    (ho : compile p moduleId false = .ok o)
    (hname : (SymbolName.indexOffset moduleId).utf8ByteSize ≤ maxNameBytes) :
    ∃ o', compile p moduleId true = .ok o' := by
  obtain ⟨c, hcompile, hvalid, -⟩ := compile_eq_ok.mp ho
  obtain ⟨l, hc⟩ := Program.comes_of_compile hcompile
  obtain ⟨c', hcompile'⟩ := Program.exists_compile hp moduleId true 1
  obtain ⟨l', hc'⟩ := Program.comes_of_compile hcompile'
  have hlimits := Module.withinLimits_of_isValid hvalid
  have hlocals : ∀ f ∈ p.functions, f.HasLocals (f.numParams.toNat + extraLocals f) :=
    fun f hf => hc.hasLocals_of_isValid hp hvalid hf
  have himports := imports_of_instrumented hc hc'
  refine ⟨_, compile_eq_ok.mpr ⟨c', hcompile', ?_, rfl⟩⟩
  -- what is new is the type of the probes and the imports that they need
  refine Module.isValid_of_isTyped (hc'.isTyped hp hlocals)
    ⟨?_, ?_, ?_, exportNames_of_comes hc hc' hlimits, locals_of_comes hc hc' hlimits⟩
  · intro t ht
    rw [hc'.types, hc'.describes.mem_types] at ht
    rcases ht with ⟨-, rfl⟩ | ht
    · decide
    · refine hlimits.params t ?_
      rw [hc.types, hc.describes.mem_types]
      exact .inr ht
  · intro i hi
    rw [himports, List.mem_append] at hi
    rcases hi with hi | hi
    · exact hlimits.importNames i hi
    · simp only [probeImports, List.mem_cons, List.not_mem_nil, or_false] at hi
      have hprobes : SymbolName.enterFunction.utf8ByteSize ≤ maxNameBytes ∧
          SymbolName.leaveFunction.utf8ByteSize ≤ maxNameBytes := by decide
      rcases hi with rfl | rfl | rfl
      · exact hprobes.1
      · exact hprobes.2
      · exact hname
  · intro i hi n hkind
    rw [himports, List.mem_append] at hi
    rcases hi with hi | hi
    · exact hlimits.pages i hi n hkind
    · simp only [probeImports, List.mem_cons, List.not_mem_nil, or_false] at hi
      rcases hi with rfl | rfl | rfl <;> cases hkind

/-- A program that compiles with probes compiles without them: its module
has fewer types and imports. -/
theorem exists_plain {p : Program} {moduleId : String} {o' : Object} (hp : p.IsValid)
    (ho' : compile p moduleId true = .ok o') : ∃ o, compile p moduleId false = .ok o := by
  obtain ⟨c', hcompile', hvalid, -⟩ := compile_eq_ok.mp ho'
  obtain ⟨l', hc'⟩ := Program.comes_of_compile hcompile'
  obtain ⟨c, hcompile⟩ := Program.exists_compile hp moduleId false 1
  obtain ⟨l, hc⟩ := Program.comes_of_compile hcompile
  have hlimits := Module.withinLimits_of_isValid hvalid
  have hlocals : ∀ f ∈ p.functions, f.HasLocals (f.numParams.toNat + extraLocals f) :=
    fun f hf => hc'.hasLocals_of_isValid hp hvalid hf
  have himports : ∀ i ∈ c.code.imports, i ∈ c'.code.imports := fun i hi => by
    rw [imports_of_instrumented hc hc']
    exact List.mem_append_left _ hi
  refine ⟨_, compile_eq_ok.mpr ⟨c, hcompile, ?_, rfl⟩⟩
  refine Module.isValid_of_isTyped (hc.isTyped hp hlocals) ⟨fun t ht => ?_,
    fun i hi => hlimits.importNames i (himports i hi), fun i hi => hlimits.pages i (himports i hi),
    exportNames_of_comes hc' hc hlimits, locals_of_comes hc' hc hlimits⟩
  rw [hc.types, hc.describes.mem_types] at ht
  refine hlimits.params t ?_
  rw [hc'.types, hc'.describes.mem_types]
  exact .inr (ht.resolve_left fun hprobe => Bool.false_ne_true hprobe.1)

/-- The plain object of a program and the instrumented one. -/
structure Instruments (p : Program) (o o' : Object) : Prop where
  plain : compile p o.moduleId false = .ok o
  instrumented : compile p o.moduleId true = .ok o'

variable {p : Program} {moduleId : String} {o o' : Object}

/-- The object of a program is that of its module. -/
theorem moduleId_of_compile {probed : Bool} (h : compile p moduleId probed = .ok o) :
    o.moduleId = moduleId := by
  obtain ⟨c, hc, -, rfl⟩ := compile_eq_ok.mp h
  obtain ⟨l, hl⟩ := Program.comes_of_compile hc
  exact hl.moduleId

theorem instruments_of_compile (h : compile p moduleId false = .ok o)
    (h' : compile p moduleId true = .ok o') : Instruments p o o' := by
  obtain rfl := moduleId_of_compile h
  exact ⟨h, h'⟩

namespace Instruments

variable (h : Instruments p o o')

include h

theorem comes : ∃ c c' l l', p.compile o.moduleId false 1 = .ok c ∧ c.Comes p o.moduleId false 1 l ∧
    p.compile o.moduleId true 1 = .ok c' ∧ c'.Comes p o.moduleId true 1 l' ∧
    o = ⟨c.moduleId, c.code, c.defined, c.undefined, c.constructors, c.isInstrumented⟩ ∧
    o' = ⟨c'.moduleId, c'.code, c'.defined, c'.undefined, c'.constructors, c'.isInstrumented⟩ := by
  obtain ⟨c, hc, -, ho⟩ := compile_eq_ok.mp h.plain
  obtain ⟨c', hc', -, ho'⟩ := compile_eq_ok.mp h.instrumented
  obtain ⟨l, hl⟩ := Program.comes_of_compile hc
  obtain ⟨l', hl'⟩ := Program.comes_of_compile hc'
  exact ⟨c, c', l, l', hc, hl, hc', hl', ho, ho'⟩

theorem moduleId_eq : o'.moduleId = o.moduleId := by
  obtain ⟨c, c', l, l', -, hl, -, hl', ho, ho'⟩ := h.comes
  rw [ho']
  exact hl'.moduleId

theorem defined_eq : o'.defined = o.defined := by
  obtain ⟨c, c', l, l', -, hl, -, hl', ho, ho'⟩ := h.comes
  rw [ho', ho]
  exact hl'.defined.trans hl.defined.symm

theorem constructors_eq : o'.constructors = o.constructors := by
  obtain ⟨c, c', l, l', -, hl, -, hl', ho, ho'⟩ := h.comes
  rw [ho', ho]
  exact hl'.constructors.trans hl.constructors.symm

theorem expectedSignature_eq (name : String) :
    o'.expectedSignature name = o.expectedSignature name := by
  obtain ⟨c, c', l, l', -, hl, -, hl', ho, ho'⟩ := h.comes
  have hundefined : o'.undefined = o.undefined := by
    rw [ho', ho]
    exact hl'.undefined.trans
      ((Layout.of_instrumented hl.layout hl'.layout).1.trans hl.undefined.symm)
  rw [expectedSignature, expectedSignature, hundefined]

/-- What an instrumented object imports: what the plain one does, the probes, and its offset. -/
theorem imports_eq_append :
    ∃ type, o'.code.imports = o.code.imports ++ probeImports type o.moduleId := by
  obtain ⟨c, c', l, l', -, hl, -, hl', ho, ho'⟩ := h.comes
  refine ⟨l'.typeIndex probeType, ?_⟩
  have hcode : o.code = c.code := congrArg (fun o : Object => o.code) ho
  have hcode' : o'.code = c'.code := congrArg (fun o : Object => o.code) ho'
  rw [hcode, hcode', imports_of_instrumented hl hl']

theorem isOf : ∃ l, o.IsOf p l := isOf_of_compile h.plain

/-- A plain object imports no functions. -/
theorem kind_ne_function : ∀ i ∈ o.code.imports, ∀ type, i.kind ≠ .function type := by
  intro i hi type
  obtain ⟨l, hof⟩ := h.isOf
  rw [hof.imports] at hi
  simp only [List.mem_append, List.mem_cons, List.not_mem_nil, or_false, List.mem_map] at hi
  rcases hi with ((rfl | rfl) | ⟨_, -, rfl⟩) | ⟨_, -, rfl⟩ <;> exact ImportKind.noConfusion

/-- The names under which a plain object imports are those of the memory, the
table and the program's callees. -/
theorem name_cases {i : Import} (hi : i ∈ o.code.imports) : i.name = SymbolName.memory ∨
    i.name = SymbolName.table ∨ ∃ x ∈ p.instructions, x.callee = some i.name := by
  obtain ⟨l, hof⟩ := h.isOf
  rw [hof.imports] at hi
  simp only [List.mem_append, List.mem_cons, List.not_mem_nil, or_false, List.mem_map] at hi
  rcases hi with ((rfl | rfl) | ⟨name, hname, rfl⟩) | ⟨cell, hcell, rfl⟩
  · exact .inl rfl
  · exact .inr (.inl rfl)
  · obtain ⟨x, hx, -, hcallee, -⟩ := Program.mem_undefinedSymbols.mp hname
    exact .inr (.inr ⟨x, hx, hcallee⟩)
  · obtain ⟨x, hx, -, hcallee⟩ := Program.mem_cells.mp hcell
    exact .inr (.inr ⟨x, hx, hcallee⟩)

end Instruments

end Object

/-! ### Imports -/

/-- A resolver leads where another does, and from the names of the probes to these. -/
structure Resolver.Probes (resolve resolve' : Resolver) : Prop where
  same : ∀ name, SymbolName.isInternal name = false → resolve' name = resolve name
  enter : resolve' SymbolName.enterFunction = some (.native .enterFunction)
  leave : resolve' SymbolName.leaveFunction = some (.native .leaveFunction)

/-- The offset of a module is found under its name. -/
def Resolver.HasOffset (resolve' : Resolver) (offset : String → Word) (moduleId : String) : Prop :=
  resolve' (SymbolName.indexOffset moduleId) = some (.constant (offset moduleId).toInt32)

/-- A program that calls nothing of the engine's. -/
def Program.CallsNothingInternal (p : Program) : Prop :=
  ∀ i ∈ p.instructions, ∀ name, i.callee = some name → SymbolName.isInternal name = false

instance (p : Program) : Decidable p.CallsNothingInternal :=
  inferInstanceAs (Decidable
    (∀ i ∈ p.instructions, ∀ name ∈ i.callee, SymbolName.isInternal name = false))

/-- The plain and the instrumented objects of programs that call nothing of the
engine's, whose offsets are found. -/
inductive Image.Instrumented (resolve' : Resolver) (offset : String → Word) :
    List Program → List Object → List Object → Prop
  | nil : Instrumented resolve' offset [] [] []
  | cons {p : Program} {o o' : Object} {ps : List Program} {os os' : List Object}
      (ho : Object.Instruments p o o') (hp : p.CallsNothingInternal)
      (hoffset : resolve'.HasOffset offset o.moduleId)
        (h : Instrumented resolve' offset ps os os') :
      Instrumented resolve' offset (p :: ps) (o :: os) (o' :: os')

namespace Linking

variable {s s' : Linking} {p : Program} {o o' : Object} {resolve resolve' : Resolver}
  {offset : String → Word} {pages generation home first : Nat} {i : Import} {is js : List Import}
  {bs : List Binding}

/-- What additional imports of an instrumented object are bound to. -/
def probeBindings (offset : Word) : List Binding :=
  [.native .enterFunction, .native .leaveFunction, .constant offset]

theorem bindImport_congr (hname : resolve' i.name = resolve i.name)
    (hmodule : o'.moduleId = o.moduleId)
    (hsignature : ∀ name, o'.expectedSignature name = o.expectedSignature name) :
    s.bindImport o' resolve' i = s.bindImport o resolve i := by
  simp only [bindImport, functionAddress, bindGlobal, bindFunction, hname, hmodule, hsignature]

theorem bindImports_congr (hname : ∀ i ∈ is, resolve' i.name = resolve i.name)
    (hmodule : o'.moduleId = o.moduleId)
    (hsignature : ∀ name, o'.expectedSignature name = o.expectedSignature name) :
    s.bindImports o' resolve' is = s.bindImports o resolve is := by
  induction is generalizing s with
  | nil => rfl
  | cons i rest ih =>
    rw [List.forall_mem_cons] at hname
    rw [bindImports, bindImports, bindImport_congr hname.1 hmodule hsignature]
    refine congrArg _ (funext ?_)
    rintro ⟨b, s₁⟩
    dsimp only
    rw [ih hname.2]

/-- Imports are bound one part after the other. -/
theorem bindImports_append : s.bindImports o resolve (is ++ js) = s.bindImports o resolve is >>=
    fun x => (x.2.bindImports o resolve js).map fun y => (x.1 ++ y.1, y.2) := by
  induction is generalizing s with
  | nil =>
    rw [List.nil_append, bindImports]
    show _ = (s.bindImports o resolve js).map fun y => y
    cases s.bindImports o resolve js <;> rfl
  | cons i rest ih =>
    rw [List.cons_append, bindImports, bindImports]
    cases s.bindImport o resolve i with
    | error e => rfl
    | ok r =>
      obtain ⟨b, s₁⟩ := r
      show (s₁.bindImports o resolve (rest ++ js) >>= fun x => pure (b :: x.1, x.2)) = _
      rw [ih]
      show _ = (s₁.bindImports o resolve rest >>= fun x => pure (b :: x.1, x.2)) >>= _
      cases s₁.bindImports o resolve rest with
      | error e => rfl
      | ok x =>
        obtain ⟨others, s₂⟩ := x
        show ((s₂.bindImports o resolve js).map _ >>= _) = (s₂.bindImports o resolve js).map _
        cases s₂.bindImports o resolve js <;> rfl

/-- Only functions that are imported are bound to functions of the host. -/
theorem boundFunction_of_bindImport {b : Binding} (h : s.bindImport o resolve i = .ok (b, s'))
    (hkind : ∀ type, i.kind ≠ .function type) : boundFunction? b = none := by
  cases bindsImport_of_bindImport h with
  | memory | table | address | cell | constant => rfl
  | function htype => exact absurd htype (hkind _)

theorem boundFunctions_of_bindImports (h : s.bindImports o resolve is = .ok (bs, s'))
    (hkind : ∀ i ∈ is, ∀ type, i.kind ≠ .function type) :
    bs.length = is.length ∧ bs.filterMap boundFunction? = [] := by
  induction is generalizing s bs with
  | nil =>
    obtain ⟨rfl, -⟩ := Prod.mk.inj (Except.ok.inj h)
    exact ⟨rfl, rfl⟩
  | cons i rest ih =>
    rw [List.forall_mem_cons] at hkind
    obtain ⟨b, s₁, others, hb, hothers, rfl⟩ := bindImports_cons_eq_ok.mp h
    obtain ⟨hlength, hfunctions⟩ := ih hothers hkind.2
    refine ⟨by rw [List.length_cons, List.length_cons, hlength], ?_⟩
    rw [List.filterMap_cons, boundFunction_of_bindImport hb hkind.1]
    exact hfunctions

section

variable (hprobes : resolve.Probes resolve')

include hprobes

/-- The additional imports of an instrumented object are bound without any address being given. -/
theorem bindImports_probes {type : Nat} (hoffset : Resolver.HasOffset resolve' offset o.moduleId) :
    s.bindImports o' resolve' (Object.probeImports type o.moduleId)
      = .ok (probeBindings (offset o.moduleId), s) := by
  have hspace : SymbolName.environment ≠ SymbolName.addresses := by decide
  have hword : (offset o.moduleId).toInt32.toUInt32 = offset o.moduleId := UInt32.toUInt32_toInt32 _
  simp only [Object.probeImports, bindImports, bindImport, bindFunction, hprobes.enter,
    hprobes.leave, if_neg hspace, bindGlobal, show resolve' _ = _ from hoffset, hword]
  rfl

/-- The imports of an instrumented object are bound to what those of the plain one are bound to, the
probes and the offset. -/
theorem bindImports_instrumented (h : Object.Instruments p o o') (hp : p.CallsNothingInternal)
    (hoffset : Resolver.HasOffset resolve' offset o.moduleId) :
    s.bindImports o' resolve' o'.code.imports = (s.bindImports o resolve o.code.imports).map
      fun x => (x.1 ++ probeBindings (offset o.moduleId), x.2) := by
  obtain ⟨type, himports⟩ := h.imports_eq_append
  have hname : ∀ i ∈ o.code.imports, resolve' i.name = resolve i.name := by
    intro i hi
    refine hprobes.same _ ?_
    rcases h.name_cases hi with hname | hname | ⟨x, hx, hcallee⟩
    · rw [hname]
      decide
    · rw [hname]
      decide
    · exact hp x hx _ hcallee
  rw [himports, bindImports_append, bindImports_congr hname h.moduleId_eq h.expectedSignature_eq]
  cases s.bindImports o resolve o.code.imports with
  | error e => rfl
  | ok x =>
    show (x.2.bindImports o' resolve' _).map _ = _
    rw [bindImports_probes hprobes hoffset]
    rfl

end

/-! ### Instances -/

/-- The instance of an instrumented object, given that of the plain one. -/
def withProbes (offset : String → Word) (home : Nat) (o' : Object) (inst : Instance Native) :
    Instance Native where
  types := o'.code.types.toArray
  functions := ([FuncRef.host Native.enterFunction, FuncRef.host Native.leaveFunction]
    ++ (List.range o'.code.functions.length).map (FuncRef.defined home)).toArray
  globals := inst.globals.push (.constant (offset o'.moduleId))
  bodies := o'.code.functions.toArray

/-- The instances of instrumented objects, from an instance number on. -/
def allWithProbes (offset : String → Word) : Nat → List Object → List (Instance Native) →
    List (Instance Native)
  | home, o' :: objects', inst :: instances =>
    withProbes offset home o' inst :: allWithProbes offset (home + 1) objects' instances
  | _, _, _ => []

theorem getElem?_allWithProbes {objects' : List Object} {instances : List (Instance Native)}
    {j : Nat} (hlength : instances.length = objects'.length) :
    (allWithProbes offset home objects' instances)[j]? = (objects'[j]?).bind fun o' =>
      (instances[j]?).map (withProbes offset (home + j) o') := by
  induction objects' generalizing home instances j with
  | nil =>
    obtain rfl := List.length_eq_zero_iff.mp hlength
    rfl
  | cons o' rest ih =>
    cases instances with
    | nil => cases hlength
    | cons inst instances =>
      cases j with
      | zero => rfl
      | succ j =>
        rw [allWithProbes, List.getElem?_cons_succ, ih (Nat.succ.inj hlength),
          List.getElem?_cons_succ, List.getElem?_cons_succ, Nat.add_right_comm, Nat.add_assoc]

theorem instantiate_instrumented (hmodule : o'.moduleId = o.moduleId)
    (hfunctions : bs.filterMap boundFunction? = []) :
    instantiate home o' (bs ++ probeBindings (offset o.moduleId))
      = withProbes offset home o' (instantiate home o bs) := by
  rw [instantiate, withProbes, instantiate, List.filterMap_append, hfunctions,
    List.filterMap_append, hmodule, List.push_toArray]
  rfl

/-- What imports accept does not depend on the probes. -/
theorem accepts_instrumented {type : Nat} {offset : Word} (hlength : bs.length = is.length) :
    ((is ++ Object.probeImports type o.moduleId).zip (bs ++ probeBindings offset)).all
        (fun (i, b) => accepts pages generation i b)
      = (is.zip bs).all fun (i, b) => accepts pages generation i b := by
  rw [List.zip_append hlength.symm, List.all_append]
  exact Bool.and_true _

/-- Instrumented objects are linked as the plain ones are, up to their instances. -/
theorem linkObjects_instrumented (hprobes : resolve.Probes resolve')
    {programs : List Program} {objects objects' : List Object}
    (h : Image.Instrumented resolve' offset programs objects objects') :
    s.linkObjects pages generation resolve' home first objects'
      = (s.linkObjects pages generation resolve home first objects).map
        fun r => (allWithProbes offset home objects' r.1, r.2) := by
  induction h generalizing s home first with
  | nil => rfl
  | @cons p o o' _ rest rest' ho hp hoffset _ ih =>
    obtain ⟨type, himports⟩ := ho.imports_eq_append
    have haddresses : ∀ s : Linking, s.constructorAddresses o' = s.constructorAddresses o :=
      fun s => by
      rw [constructorAddresses, constructorAddresses, ho.constructors_eq]
    rw [linkObjects, linkObjects, bindImports_instrumented hprobes ho hp hoffset]
    cases hbindings : s.bindImports o resolve o.code.imports with
    | error e => rfl
    | ok x =>
      obtain ⟨bs, s₁⟩ := x
      obtain ⟨hlength, hfunctions⟩ := boundFunctions_of_bindImports hbindings ho.kind_ne_function
      simp only [Except.map, bind, Except.bind]
      rw [himports, accepts_instrumented hlength, ho.moduleId_eq, ho.defined_eq, haddresses, ih]
      -- from here on both take the same steps
      cases (o.code.imports.zip bs).all fun (i, b) => accepts pages generation i b with
      | false => rfl
      | true =>
        cases (s₁.place home first o.defined.length).constructorAddresses o with
        | error e => rfl
        | ok addresses =>
          dsimp only
          cases (s₁.place home first o.defined.length).linkObjects pages generation
            resolve (home + 1)
              (first + o.defined.length) rest with
          | error e => rfl
          | ok r =>
            obtain ⟨instances, constructors, s₂⟩ := r
            simp only [Except.map, pure, Except.pure, Bool.not_true, Bool.false_eq_true, if_false]
            rw [instantiate_instrumented ho.moduleId_eq hfunctions]
            rfl

theorem assign_instrumented {symbols : List (String × Nat)}
    {programs : List Program} {objects objects' : List Object}
    (h : Image.Instrumented resolve' offset programs objects objects') :
    assign symbols objects' = assign symbols objects := by
  induction h generalizing symbols with
  | nil => rfl
  | cons ho _ _ _ ih =>
    rw [assign, assign, ho.moduleId_eq, ho.defined_eq]
    exact congrArg _ (funext fun _ => ih)

end Linking

/-! ### Images -/

namespace Image

open Linking

variable {resolve resolve' : Resolver} {offset : String → Word} {programs : List Program}
  {objects objects' : List Object} {pages generation home : Nat} {p : Program} {image : Image}

/-- The image of instrumented objects, given that of the plain ones. -/
def withProbes (image : Image) (offset : String → Word) (objects' : List Object) : Image :=
  { image with instances := (allWithProbes offset 0 objects' image.instances.toList).toArray }

/-- Instrumented objects are linked exactly if the plain ones are, and to an image that
differs in the instances only. -/
theorem link_instrumented (hprobes : resolve.Probes resolve')
    (h : Instrumented resolve' offset programs objects objects') :
    Image.link pages generation objects' resolve'
      = (Image.link pages generation objects resolve).map (·.withProbes offset objects') := by
  unfold Image.link
  rw [assign_instrumented h]
  split
  · rfl
  · cases assign [] objects with
    | error e => rfl
    | ok symbols =>
      simp only [bind, Except.bind, pure, Except.pure]
      rw [linkObjects_instrumented hprobes h]
      cases linkObjects ⟨Array.replicate (symbols.length + 1) none, symbols, []⟩ pages
        generation resolve
          0 1 objects with
      | error e => rfl
      | ok r => rfl

namespace Instrumented

variable (h : Instrumented resolve' offset programs objects objects')

include h

theorem areOf : List.Forall₂ (fun p o => ∃ l, Object.IsOf o p l) programs objects := by
  induction h with
  | nil => exact .nil
  | cons ho _ _ _ ih => exact .cons ho.isOf ih

theorem length_eq : objects'.length = objects.length := by
  induction h with
  | nil => rfl
  | cons _ _ _ _ ih => rw [List.length_cons, List.length_cons, ih]

theorem exists_objects (hp : programs[home]? = some p) : ∃ o o', objects[home]? = some o ∧
    objects'[home]? = some o' ∧ Object.Instruments p o o' := by
  induction h generalizing home with
  | nil => cases hp
  | cons ho _ _ _ ih =>
    cases home with
    | zero =>
      obtain rfl := Option.some.inj hp
      exact ⟨_, _, rfl, rfl, ho⟩
    | succ home => exact ih hp

end Instrumented

/-- What programs find in an image in which they have probes. -/
def probedEnvironment (image : Image) (programs : List Program) (objects : List Object)
    (offset : String → Word) (cells : Array Word) (maxDepth : Nat) : Environment Native HostState :=
  { image.environment programs cells maxDepth with
    probes := fun home => (objects[home]?).map fun o =>
      ⟨.enterFunction, .leaveFunction, offset o.moduleId⟩ }

/-- What plain code finds in the globals, instrumented code does, and its offset after that. -/
theorem global?_withProbes (offset : String → Word) {o o' : Object} {inst : Instance Native}
    (hobject : objects'[home]? = some o') (hlength : image.instances.size = objects'.length)
    (hinst : image.instances[home]? = some inst) (hmodule : o'.moduleId = o.moduleId)
    (cells : Array Word) (maxDepth : Nat) :
    (image.withProbes offset objects').instances[home]?
      = some (Linking.withProbes offset home o' inst) ∧
      (∀ g < inst.globals.size,
        ((image.withProbes offset objects').linkage cells maxDepth).global? home g
          = (image.linkage cells maxDepth).global? home g) ∧
      ((image.withProbes offset objects').linkage cells maxDepth).global? home inst.globals.size
        = some (offset o.moduleId) := by
  have hinst' : (image.withProbes offset objects').instances[home]?
      = some (Linking.withProbes offset home o' inst) := by
    show ((allWithProbes offset 0 objects' image.instances.toList).toArray)[home]? = _
    rw [List.getElem?_toArray, getElem?_allWithProbes (by rw [Array.length_toList, hlength]),
      hobject, Array.getElem?_toList, hinst, Nat.zero_add]
    rfl
  refine ⟨hinst', fun g hg => ?_, ?_⟩
  · have hget : (inst.globals.push (.constant (offset o'.moduleId)))[g]? = inst.globals[g]? := by
      rw [Array.getElem?_push, if_neg (Nat.ne_of_lt hg)]
    simp only [Linkage.global?, linkage, hinst, hinst', Option.bind_eq_bind, Option.bind_some,
      Linking.withProbes, hget]
  · simp only [Linkage.global?, linkage, hinst', Option.bind_eq_bind, Option.bind_some,
      Linking.withProbes, Array.getElem?_push_size, hmodule]

/-- The globals that instrumented code imports are those of plain code and the offset. -/
theorem importedGlobals_instrumented {c c' : CompiledProgram} {l l' : Layout} {moduleId : String}
    (hc : c.Comes p moduleId false 1 l) (hc' : c'.Comes p moduleId true 1 l') :
    c'.code.importedGlobals = c.code.importedGlobals
      ++ [⟨SymbolName.environment, SymbolName.indexOffset moduleId, .global false⟩] := by
  obtain ⟨hundefined, hcells⟩ := Layout.of_instrumented hc.layout hc'.layout
  rw [hc.importedGlobals, hc'.importedGlobals, hundefined, hcells]
  simp

/-- The image of instrumented objects runs the programs with probes. -/
theorem IsLinked.realizes_instrumented {natives : List Native}
    (hlinked : IsLinked pages objects resolve image natives)
    (h : Instrumented resolve' offset programs objects objects') {cells : Array Word}
    (hsuits : IsLinked.Suits resolve cells) (maxDepth : Nat) :
    Realizes ((image.withProbes offset objects').linkage cells maxDepth)
      (image.probedEnvironment programs objects offset cells maxDepth) := by
  have hsize : image.instances.size = objects'.length := by
    obtain ⟨s, -, hlinks⟩ := hlinked.links
    rw [← Array.length_toList, hlinks.length_eq, h.length_eq]
  have hplain : Realizes (image.linkage cells maxDepth)
      (image.environment programs cells maxDepth) :=
    hlinked.realizes h.areOf hsuits
  refine ⟨rfl, rfl, rfl, fun home p hp => ?_, fun home hnone => ?_⟩
  · replace hp : programs[home]? = some p := hp
    obtain ⟨o, o', hobject, hobject', ho⟩ := h.exists_objects hp
    obtain ⟨c, c', l, l', -, hc, hcompile', hc', ho₁, ho₁'⟩ := ho.comes
    obtain ⟨o₂, l₂, inst, hobject₂, -, hinst, -, -, -, hbound⟩ := hlinked.exists_instance h.areOf hp
    obtain rfl := Option.some.inj (hobject.symm.trans hobject₂)
    obtain ⟨moduleId₃, minPages₃, c₃, -, hcompile₃, -, -, -, -, hglobals⟩ := hplain.runs home p hp
    obtain ⟨l₃, hc₃⟩ := Program.comes_of_compile hcompile₃
    obtain ⟨hinst', hsame, hoffset⟩ := global?_withProbes offset hobject' hsize hinst ho.moduleId_eq
      cells maxDepth
    -- both compiled forms without probes have the same globals
    obtain rfl : l₃ = l := Except.ok.inj (hc₃.layout.symm.trans hc.layout)
    have hcode : o.code = c.code := congrArg (fun o : Object => o.code) ho₁
    have hcode' : o'.code = c'.code := congrArg (fun o : Object => o.code) ho₁'
    have himported : c₃.code.importedGlobals = c.code.importedGlobals :=
      hc₃.importedGlobals.trans hc.importedGlobals.symm
    have hcount : inst.globals.size = c.code.importedGlobals.length := by
      rw [← hcode, hbound.length_eq, Array.length_toList]
    have hprobes : (image.probedEnvironment programs objects offset cells maxDepth).probes home
        = some ⟨.enterFunction, .leaveFunction, offset o.moduleId⟩ := by
      show (objects[home]?).map _ = _
      rw [hobject]
      rfl
    refine ⟨o.moduleId, 1, c', _, by rw [hprobes]; exact hcompile', hinst', ?_, ?_, ?_,
      fun g i hi => ?_⟩
    · rw [← hcode']
      rfl
    · rw [← hcode']
      rfl
    · rw [Environment.probeRefs, hprobes, ← hcode']
      rfl
    · rw [importedGlobals_instrumented hc hc'] at hi
      by_cases hg : g < c.code.importedGlobals.length
      · rw [List.getElem?_append_left hg] at hi
        rw [hsame g (by rw [hcount]; exact hg), hglobals g i (by rw [himported]; exact hi)]
        rw [hc.importedGlobals, if_neg (by simp), List.append_nil] at hi
        rcases List.mem_append.mp (List.mem_of_getElem? hi) with hmem | hmem
        · obtain ⟨u, -, rfl⟩ := List.mem_map.mp hmem
          rfl
        · obtain ⟨cell, -, rfl⟩ := List.mem_map.mp hmem
          rfl
      · have hlast : g = c.code.importedGlobals.length := by
          have hlt := (List.getElem?_eq_some_iff.mp hi).1
          rw [List.length_append, List.length_singleton] at hlt
          omega
        subst hlast
        rw [List.getElem?_concat_length] at hi
        obtain rfl := Option.some.inj hi
        have hspace : SymbolName.environment ≠ SymbolName.addresses := by decide
        rw [← hcount, hoffset, Environment.globalValue]
        dsimp only
        rw [if_neg hspace, hprobes]
        rfl
  · replace hnone : programs[home]? = none := hnone
    have hlength : objects.length = programs.length := h.areOf.length_eq.symm
    show ((allWithProbes offset 0 objects' image.instances.toList).toArray)[home]? = none
    rw [List.getElem?_toArray, getElem?_allWithProbes (by rw [Array.length_toList, hsize]),
      List.getElem?_eq_none (by
        rw [h.length_eq, hlength]
        exact List.getElem?_eq_none_iff.mp hnone)]
    rfl

end Image

end MutationAnalysis
