/-
What the functions of an image tell its probes.

The instance of an object that has probes holds them as its first functions, and the
module's offset as its last global.  No other function of the instance is one of the host.
So each call of a probe that a function makes gets the function's index, counted from the
offset (`Wasm.Linkage.TellsProbes`).

* `Wasm.Instance.IsProbed.tellsProbes`: what the functions of such an instance tell;
* `Image.exists_isProbed_of_link`: linking makes such an instance of an object with probes.
-/
import MutationAnalysis.Proofs.Image.Instrumented
import MutationAnalysis.Proofs.Image.Probes
import MutationAnalysis.Proofs.Lowering.Probes

namespace MutationAnalysis

open Wasm Lowering Recorder

/-! ### Functions that tell -/

/-- A function of an image tells its probes a number, whatever it is called with and
whatever waits for it. That it is entered it tells before anything else happens; whenever it
calls a function of the host as one of its module, that is a probe, and what the recorder is
told then is about the number. -/
structure Wasm.Linkage.TellsProbes (l : Linkage Native HostState) (home index number : Nat) :
    Prop where
  exists_body : ∃ type body, l.body? home index = some (type, body)
  enters : ∀ type body arguments callers depth memory state,
    l.body? home index = some (type, body) →
    ∃ m, Machine.Within l callers.length ⟨.start home type body arguments, callers, depth,
      memory, state⟩ m ∧
      m.callers = callers ∧ m.memory = memory ∧ m.state = state ∧
      ∃ passed, m.CallsHost l .enterFunction passed
  tells : ∀ type body arguments callers depth memory state m,
    l.body? home index = some (type, body) →
    Machine.Within l callers.length ⟨.start home type body arguments, callers, depth,
      memory, state⟩ m →
    m.callers.length = callers.length → ∀ n passed, m.CallsHost l n passed →
      ∃ e : Event, n.told passed = [e] ∧ e.index = number ∧
        ∃ m', m.step l = .next m' ∧ m'.state.recorder = m.state.recorder.record e

/-- What the instance of a program with probes holds. -/
structure Wasm.Instance.IsProbed (inst : Instance Native) (p : Program)
    (layout : Layout) (home : Nat) (offset : Word) : Prop where
  describes : layout.Describes p true
  types : inst.types = layout.types.toArray
  functions : inst.functions
    = ([FuncRef.host Native.enterFunction, FuncRef.host Native.leaveFunction]
    ++ (List.range p.functions.length).map (FuncRef.defined home)).toArray
  offset : inst.globals[layout.offsetGlobal]? = some (.constant offset)
  body : ∀ (i : Nat) (f : Function), p.functions[i]? = some f → ∃ codes,
    BlocksEmit layout i (counterLocal f) f.blocks codes ∧
    inst.bodies[i]? = some (bodyOf layout i f codes)

section

variable {l : Linkage Native HostState} {inst : Instance Native} {p : Program} {layout : Layout}
  {home index : Nat} {offset : Word} {f : Function}

/-- What a probe records that is called with a number. -/
theorem Native.records_probe {m : Machine HostState} (hhost : l.host = Native.host) {n : Native}
    (hn : n = .enterFunction ∨ n = .leaveFunction) {number : Word} {rest : Code}
    {operands : List Word} :
    ∃ e : Event, n.told [number] = [e] ∧ e.index = number.toNat ∧
      ∃ m', m.enter l (.host n) [number] rest operands = .next m' ∧
        m'.state.recorder = m.state.recorder.record e := by
  obtain rfl | rfl := hn
  · refine ⟨.enter number.toNat, rfl, rfl, ?_⟩
    unfold Machine.enter
    rw [hhost]
    exact ⟨_, rfl, rfl⟩
  · refine ⟨.leave number.toNat, rfl, rfl, ?_⟩
    unfold Machine.enter
    rw [hhost]
    exact ⟨_, rfl, rfl⟩

namespace Wasm.Instance.IsProbed

variable (h : inst.IsProbed p layout home offset) (hinst : l.instances[home]? = some inst)

include h

/-- The functions of the host that the instance has are its first ones. -/
theorem probe_of_host {function : Nat} {n : Native}
    (hfunction : inst.functions[function]? = some (.host n)) :
    function < 2 ∧ (n = .enterFunction ∨ n = .leaveFunction) := by
  rw [h.functions, List.getElem?_toArray] at hfunction
  match function with
  | 0 => exact ⟨by decide, .inl (by simpa using hfunction.symm)⟩
  | 1 => exact ⟨by decide, .inr (by simpa using hfunction.symm)⟩
  | function + 2 =>
    rw [List.getElem?_append_right (by simp)] at hfunction
    obtain ⟨_, -, hdefined⟩ := List.mem_map.mp (List.mem_of_getElem? hfunction)
    cases hdefined

include hinst

theorem global?_offset : l.global? home layout.offsetGlobal = some offset := by
  simp [Linkage.global?, hinst, h.offset]

theorem exists_body (hf : p.functions[index]? = some f) : ∃ codes,
    BlocksEmit layout index (counterLocal f) f.blocks codes ∧
      l.body? home index = some (funcType f.signature, bodyOf layout index f codes) := by
  obtain ⟨codes, hcodes, hbody⟩ := h.body index f hf
  have htype : layout.types[(bodyOf layout index f codes).type]? = some (funcType f.signature) :=
    Layout.Describes.types_typeIndex (h.describes.funcType_mem (List.mem_of_getElem? hf))
  exact ⟨codes, hcodes, by simp [Linkage.body?, hinst, hbody, h.types, htype]⟩

section

variable (hhost : l.host = Native.host) {codes : List Code}
  (hcodes : BlocksEmit layout index (counterLocal f) f.blocks codes) {type : FuncType}
  {arguments : List Word} {callers : List Frame} {depth : Nat} {memory : Memory} {state : HostState}

include hhost

/-- A function starts with the call of the probe for entries. -/
theorem exists_callsHost_enter : ∃ m, Machine.Within l callers.length
      ⟨.start home type (bodyOf layout index f codes) arguments, callers, depth, memory, state⟩ m ∧
    m.callers = callers ∧ m.memory = memory ∧ m.state = state ∧
      m.CallsHost l .enterFunction [UInt32.ofNat index + offset] := by
  obtain ⟨rest, hcode⟩ := exists_code_bodyOf h.describes.isInstrumented index f codes
  have hfirst : inst.functions[enterProbe]? = some (.host .enterFunction) := by
    rw [h.functions]
    rfl
  rw [Frame.start, hcode]
  refine ⟨_, Machine.within_sum (p := ⟨[], home, _, callers, depth⟩) (h.global?_offset hinst),
    rfl, rfl, rfl, .intro rfl hinst hfirst ?_ ?_⟩ <;> rw [hhost] <;> rfl

include hcodes

/-- The functions of the host that a function calls are probes, which get the sum. -/
theorem passed_eq {m : Machine HostState} (hwithin : Machine.Within l callers.length
      ⟨.start home type (bodyOf layout index f codes) arguments, callers, depth, memory, state⟩ m)
    (hcallers : m.callers.length = callers.length) {n : Native} {passed : List Word}
    (hcalls : m.CallsHost l n passed) :
    (n = .enterFunction ∨ n = .leaveFunction) ∧ passed = [UInt32.ofNat index + offset] := by
  have hpassing := hwithin.isPassing (h.global?_offset hinst) hcodes.passesNumber_bodyOf hcallers
  obtain ⟨hcode, hinst', hfunction, hpassed, -⟩ := hcalls
  rw [hpassing.home, hinst] at hinst'
  obtain rfl := Option.some.inj hinst'
  obtain ⟨hlt, hn⟩ := h.probe_of_host hfunction
  have hprobes : layout.probes = 2 := by rw [Layout.probes, if_pos h.describes.isInstrumented]
  obtain ⟨below, hoperands⟩ := hpassing.operands_eq hcode (hprobes ▸ hlt)
  have hparams : (l.host.type n).params = 1 := by
    rw [hhost]
    obtain rfl | rfl := hn <;> rfl
  rw [hpassed, hoperands, hparams]
  exact ⟨hn, rfl⟩

end

/-- The functions of a program with probes tell them their index, counted from the offset. -/
theorem tellsProbes (hhost : l.host = Native.host) (hf : p.functions[index]? = some f) :
    l.TellsProbes home index (UInt32.ofNat index + offset).toNat := by
  obtain ⟨codes, hcodes, hbody⟩ := h.exists_body hinst hf
  refine ⟨⟨_, _, hbody⟩, ?_, ?_⟩
  · intro type body arguments callers depth memory state hbody'
    obtain ⟨rfl, rfl⟩ := Prod.mk.inj (Option.some.inj (hbody.symm.trans hbody'))
    obtain ⟨m, hwithin, hcallers, hmemory, hstate, hcalls⟩ := h.exists_callsHost_enter hinst hhost
    exact ⟨m, hwithin, hcallers, hmemory, hstate, _, hcalls⟩
  · intro type body arguments callers depth memory state m hbody' hwithin hcallers n passed hcalls
    obtain ⟨rfl, rfl⟩ := Prod.mk.inj (Option.some.inj (hbody.symm.trans hbody'))
    obtain ⟨hn, rfl⟩ := h.passed_eq hinst hhost hcodes hwithin hcallers hcalls
    obtain ⟨rest, operands, hstep⟩ := hcalls.exists_step_eq
    rw [hstep]
    exact Native.records_probe hhost hn

end Wasm.Instance.IsProbed

end

/-! ### Objects with probes -/

/-- The object comes of a program that was compiled with probes. -/
def Object.HasProbes (o : Object) : Prop :=
  ∃ p moduleId minPages, Object.compileWith p moduleId true minPages = .ok o

section

variable {o : Object} {p : Program} {moduleId : String}
  {minPages pages generation home first j : Nat}
  {c : CompiledProgram} {layout : Layout} {objects : List Object} {resolve : Resolver}
  {offset : String → Word} {image : Image}

theorem Object.HasProbes.exists_comes (h : o.HasProbes) : ∃ c p minPages layout,
    CompiledProgram.Comes c p o.moduleId true minPages layout ∧ o.code = c.code ∧
    o.defined = c.defined := by
  obtain ⟨p, moduleId, minPages, hcompile⟩ := h
  obtain ⟨c, hc, -, rfl⟩ := compileWith_eq_ok.mp hcompile
  obtain ⟨layout, hl⟩ := Program.comes_of_compile hc
  obtain rfl := hl.moduleId
  exact ⟨c, p, minPages, layout, hl, rfl, rfl⟩

/-- The probes and the offset are imported last, and no function besides the probes. -/
theorem CompiledProgram.Comes.imports_eq_append (h : c.Comes p moduleId true minPages layout) :
    ∃ others, c.code.imports = others ++ Object.probeImports (layout.typeIndex probeType) moduleId ∧
      ∀ i ∈ others, ∀ type, i.kind ≠ .function type := by
  rw [h.imports, Lowering.imports, if_pos h.describes.isInstrumented]
  refine ⟨_, rfl, fun i hi type => ?_⟩
  simp only [List.mem_append, List.mem_cons, List.not_mem_nil, or_false, List.mem_map] at hi
  rcases hi with ((rfl | rfl) | ⟨_, -, rfl⟩) | ⟨_, -, rfl⟩ <;> exact ImportKind.noConfusion

/-- The instance of an object has what its imports were bound to when it was linked. -/
theorem Linking.exists_bindImports_of_linkObjects {s s' : Linking}
    {instances : List (Instance Native)}
    {constructors : List Nat} (h : s.linkObjects pages generation resolve home first objects
      = .ok (instances, constructors, s')) (ho : objects[j]? = some o) :
    ∃ s₁ s₂ bindings, bindImports s₁ o resolve o.code.imports = .ok (bindings, s₂) ∧
      instances[j]? = some (instantiate (home + j) o bindings) := by
  induction objects generalizing s home first j instances constructors with
  | nil => cases ho
  | cons o' rest ih =>
    obtain ⟨bindings, s₁, _, others, _, hbindings, -, -, hothers, rfl, -⟩ :=
      linkObjects_cons_eq_ok.mp h
    cases j with
    | zero =>
      obtain rfl := Option.some.inj ho
      exact ⟨s, s₁, bindings, hbindings, rfl⟩
    | succ j =>
      obtain ⟨s₁, s₂, bindings, hbindings, hinst⟩ := ih hothers ho
      exact ⟨s₁, s₂, bindings, hbindings, by
        rw [List.getElem?_cons_succ, hinst, Nat.add_right_comm, Nat.add_assoc]⟩

namespace Image

open Linking

/-- An instance has a global for each one that its module imports. -/
theorem IsLinked.size_globals {natives : List Native}
    (h : IsLinked pages objects resolve image natives)
    (ho : objects[home]? = some o) {inst : Instance Native}
    (hinst : image.instances[home]? = some inst) :
    inst.globals.size = o.code.importedGlobals.length := by
  obtain ⟨_, -, hlinks⟩ := h.links
  obtain ⟨bindings, hbound, hbinds⟩ := hlinks.bound home o ho
  rw [Array.getElem?_toList, hinst] at hbound
  rw [Option.some.inj hbound, instantiate, List.size_toArray]
  exact (boundGlobals hbinds).length_eq.symm

/-- What the instance of an object with probes holds in an image. -/
theorem exists_isProbed_of_link (h : Image.link pages generation objects resolve = .ok image)
    (hresolve : resolve.Probes resolve) (ho : objects[home]? = some o) (hprobes : o.HasProbes)
    (hoffset : resolve.HasOffset offset o.moduleId) : ∃ inst p layout,
      image.instances[home]? = some inst ∧ inst.IsProbed p layout home (offset o.moduleId) ∧
        o.defined = p.functions.map (·.name) := by
  obtain ⟨c, p, minPages, layout, hc, hcode, hdefined⟩ := hprobes.exists_comes
  obtain ⟨others, himports, hkinds⟩ := hc.imports_eq_append
  obtain ⟨natives, hlinked⟩ := isLinked_of_link h
  obtain ⟨-, _, instances, _, _, -, hlink, himage⟩ := link_eq_ok.mp h
  obtain ⟨s₁, s₂, bindings, hbindings, hinst⟩ := exists_bindImports_of_linkObjects hlink ho
  -- what is bound before the probes are no functions, and as many globals as come before the offset
  rw [hcode, himports, bindImports_append] at hbindings
  obtain ⟨⟨before, s₃⟩, hbefore, hbindings⟩ := bind_eq_ok.mp hbindings
  rw [bindImports_probes hresolve hoffset] at hbindings
  obtain ⟨rfl, rfl⟩ := Prod.mk.inj (Except.ok.inj hbindings)
  obtain ⟨-, hfunctions⟩ := boundFunctions_of_bindImports hbefore hkinds
  rw [Nat.zero_add] at hinst
  have hinst' : image.instances[home]?
      = some (instantiate home o (before ++ probeBindings (offset o.moduleId))) := by
    rw [himage, List.getElem?_toArray, hinst]
  have hglobals : (before.filterMap boundGlobal?).length = layout.offsetGlobal := by
    have hsize := hlinked.size_globals ho hinst'
    rw [hcode, hc.importedGlobals_length, instantiate, List.size_toArray, List.filterMap_append,
      List.length_append] at hsize
    exact Nat.add_right_cancel hsize
  refine ⟨_, p, layout, hinst', ⟨hc.describes, ?_, ?_, ?_, fun i f hf => ?_⟩,
    hdefined.trans hc.defined⟩
  · rw [instantiate, hcode, hc.types]
  · rw [instantiate, List.filterMap_append, hfunctions, hcode, hc.functions_length]
    rfl
  · rw [instantiate, List.getElem?_toArray, List.filterMap_append, ← hglobals,
      List.getElem?_append_right (Nat.le_refl _), Nat.sub_self]
    rfl
  · obtain ⟨codes, hcodes, hbody⟩ := hc.body hf
    exact ⟨codes, hcodes, by rw [instantiate, hcode, List.getElem?_toArray, hbody]⟩

/-- Every function of an image of objects with probes tells these its index, counted
from the offset of its module. -/
theorem tellsProbes_of_link (h : Image.link pages generation objects resolve = .ok image)
    (hresolve : resolve.Probes resolve) (ho : objects[home]? = some o) (hprobes : o.HasProbes)
    (hoffset : resolve.HasOffset offset o.moduleId) {index : Nat} {name : String}
    (hname : o.defined[index]? = some name) (cells : Array Word) (maxDepth : Nat) :
    (image.linkage cells maxDepth).TellsProbes home index
      (UInt32.ofNat index + offset o.moduleId).toNat := by
  obtain ⟨inst, p, layout, hinst, hprobed, hdefined⟩ :=
    exists_isProbed_of_link h hresolve ho hprobes hoffset
  rw [hdefined, List.getElem?_map, Option.map_eq_some_iff] at hname
  obtain ⟨f, hf, -⟩ := hname
  exact hprobed.tellsProbes hinst rfl hf

end Image

end

end MutationAnalysis
