/-
What a call tree may leave out.

A call tree has a node for every function that was entered while its test ran.  So a function
without a node was not, and the test never came to where a mutant of the function differs from
it.  The run in the instrumented image is followed by a run in a fresh plain image of the units
with the edit made, until the function is entered (`Engine.Instruments.unprobed_of_edit`); that
image is what the worker's image stands for while the mutant is bound.  So a mutant of a
function without a node is not killed.

* `Engine.function?_of_compileUnits`: the number under which a function is recorded;
* `Engine.Instruments.passes_of_trace`: what the test comes to in the worker's image;
* `Engine.passes_of_unreached`: a test that passes while the function is not
  entered passes with its mutant.
-/
import MutationAnalysis.Proofs.Campaign.Instrumentation
import MutationAnalysis.Proofs.Campaign.Truth
import MutationAnalysis.Proofs.Trace.Entries

namespace MutationAnalysis

open Wasm Lowering Interpreter Recorder

/-! ### What is recorded -/

/-- The host's functions leave the entries that there are. -/
theorem Native.keeps_hasEntry (n : Native) (arguments : List Word) (memory : Memory) {s : HostState}
    {k : Nat} (h : s.recorder.HasEntry k) :
    (Native.host.call n arguments memory s).Keeps (fun _ s => s.recorder.HasEntry k) fun _ =>
      True :=
  (Native.recorder_call n arguments memory s).imp
    (fun _ _ hrecorder => hrecorder ▸ h.foldl_record _) fun _ _ => trivial

/-- States of a host that records and of one that does not, while no
function is to be run at the end. -/
structure HostState.Records (size : Nat) (s t : HostState) : Prop where
  agrees : s.AgreesWith t
  none_pending : s.destructors = []
  slots : s.recorder.HasSlots size

namespace HostState.Records

variable {size k : Nat} {s t : HostState} (h : s.Records size t)

include h

theorem enter (hk : k ≠ 0) : (s.enter k).Records size t := by
  obtain ⟨recorder, destructors, output⟩ := s
  exact ⟨h.agrees, h.none_pending, h.slots.enter hk⟩

theorem leave : s.leave.Records size t := ⟨h.agrees, h.none_pending, h.slots.leave⟩

/-- The host's functions that are no probes and register none answer alike. -/
theorem answersAlike {n : Native} (hquiet : n.IsQuiet) (hn : n.IsNoProbe) (arguments : List Word)
    (memory : Memory) :
    AnswersAlike (HostState.Records size) (Native.host.call n arguments memory s)
      (Native.host.call n arguments memory t) := by
  have hrecorder : (Native.host.call n arguments memory s).Keeps
      (fun _ s' => s'.recorder.HasSlots size) fun _ => True :=
    (Native.recorder_call n arguments memory s).imp (fun _ s' hs' => by
      rw [hs', Native.told_of_isNoProbe hn]
      exact h.slots) fun _ => id
  exact (((Native.answersAlike hn arguments memory h.agrees).keeps
    (Native.keeps_of_isQuiet hquiet arguments memory h.none_pending)).keeps hrecorder).imp
      fun _ _ ⟨⟨hagrees, hnone⟩, hslots⟩ => ⟨hagrees, hnone, hslots⟩

end HostState.Records

/-- The number that the probes of a function of a module are told. -/
def Numbering.recordedAs (n : Numbering) (moduleId : String) (index : Nat) : Nat :=
  (UInt32.ofNat index + n.offsetWord moduleId).toNat

/-- The number that a function is recorded under is its own, if no other object is of its module and
there are no more slots than words. -/
theorem Numbering.function?_recordedAs {objects : List Object} {j i : Nat} {o : Object}
    {name : String} (hj : objects[j]? = some o) (hi : o.defined[i]? = some name)
    (hunique : ∀ (k : Nat) (o' : Object), objects[k]? = some o' → o'.moduleId = o.moduleId → k = j)
    (hsize : (Numbering.of objects).mappingSize ≤ UInt32.size) :
    (Numbering.of objects).function? ((Numbering.of objects).recordedAs o.moduleId i)
      = some ⟨o.moduleId, i, name⟩ := by
  obtain ⟨offset, hoffset⟩ := exists_offset (List.mem_of_getElem? hj)
  have hfunction := function?_of_offset hj hi hunique hoffset
  have hlt := (lt_mappingSize hfunction).2
  have hnumber : (Numbering.of objects).recordedAs o.moduleId i = offset + i := by
    rw [recordedAs, offsetWord, hoffset, Option.getD_some, ← UInt32.ofNat_add,
      UInt32.toNat_ofNat_of_lt', Nat.add_comm]
    omega
  rw [hnumber, hfunction]

/-- Runs are compared until a function of a module is entered.  The second loader
may have too small a stack. -/
def Comparison.untilEntered (n : Numbering) (moduleId : String) (index : Nat) (small : Prop) :
    Comparison :=
  ⟨HostState.Records n.mappingSize, HasEntry (n.recordedAs moduleId index), True, small⟩

/-! ### Edited programs -/

/-- An edit makes a difference to the function that it is made in only. -/
theorem Program.differsIn_of_editAt? {p edited : Program} {q : MutationPoint}
    (h : p.editAt? q = some edited) : p.DiffersIn edited (· = q.address.function) := by
  obtain ⟨f, g, hf, hg, rfl⟩ := Program.editAt?_eq_some.mp h
  have hlt := (List.getElem?_eq_some_iff.mp hf).1
  have hname : g.name = f.name := by rw [Operator.eq_of_apply hg]
  have hsignature : g.signature = f.signature := by
    rw [Operator.eq_of_apply hg]
    rfl
  refine ⟨rfl, rfl, List.ext_getElem? fun i => ?_, fun i f' hf' => ?_⟩
  all_goals by_cases heq : q.address.function = i
  · subst heq
    rw [List.getElem?_map, List.getElem?_map, List.getElem?_set_self hlt, hf, Option.map_some,
      Option.map_some, hname]
  · rw [List.getElem?_map, List.getElem?_map, List.getElem?_set_ne heq]
  · subst heq
    obtain rfl := Option.some.inj (hf.symm.trans hf')
    exact ⟨g, List.getElem?_set_self hlt, hname, hsignature, .inl rfl⟩
  · exact ⟨f', (List.getElem?_set_ne heq).trans hf', rfl, rfl, .inr rfl⟩

namespace Engine

variable {config : LoaderConfig} {units : List ProgramUnit} {plain objects edited' : List Object}
  {image image' : Image} {l₀ l l₀' l' : Loader} {i : Nat} {u : ProgramUnit} {edited : Program}
  {q : MutationPoint}

/-- Where an edit is made in one of several units, their programs differ in
one function of one of them. -/
theorem differs_of_set (hi : units[i]? = some u) (hedit : u.program.editAt? q = some edited) :
    ∀ (home : Nat) (p : Program), (units.map (·.program))[home]? = some p → ∃ p',
      ((units.set i { u with program := edited }).map (·.program))[home]? = some p' ∧
        p.DiffersIn p' fun index => home = i ∧ index = q.address.function := by
  intro home p hp
  rw [List.map_set]
  by_cases heq : i = home
  · subst heq
    rw [List.getElem?_map, hi] at hp
    obtain rfl := Option.some.inj hp
    have hd := Program.differsIn_of_editAt? hedit
    refine ⟨edited, ?_, ?_⟩
    · rw [List.getElem?_set_self]
      rw [List.length_map]
      exact (List.getElem?_eq_some_iff.mp hi).1
    · simpa using hd
  · refine ⟨p, (List.getElem?_set_ne heq).trans hp, .refl p⟩

/-! ### Numbers -/

/-- The number that a function is recorded under is its own, if identifiers tell programs apart. -/
theorem function?_of_compileUnits (hobjects : compileUnits units true = .ok objects)
    (hnames : ((units.map (·.program)).flatMap Program.names).Nodup)
    (hidentifiers : AreIdentified units)
    (hsize : (Numbering.of objects).mappingSize ≤ UInt32.size) {home index : Nat} {f : Function}
    (hu : units[home]? = some u) (hf : u.program.functions[index]? = some f) :
    (Numbering.of objects).function? ((Numbering.of objects).recordedAs u.identifier index)
      = some ⟨u.identifier, index, f.name⟩ := by
  obtain ⟨o, ho, hcompile⟩ := exists_right_of_getElem? (mapM_eq_ok.mp hobjects) hu
  have hmodule := Object.moduleId_of_compile hcompile
  obtain ⟨layout, hl⟩ := Object.exists_represents hcompile
  have hdefined : o.defined[index]? = some f.name := by
    rw [hl.defined, List.getElem?_map, hf]
    rfl
  have hunique : ∀ (k : Nat) (o' : Object), objects[k]? = some o' → o'.moduleId = o.moduleId →
      k = home := by
    intro k o' ho' heq
    obtain ⟨v, hv, hcompile'⟩ := exists_right_of_getElem? (mapM_eq_ok.mp hobjects).flip ho'
    rw [Object.moduleId_of_compile hcompile', hmodule] at heq
    have hprogram := hidentifiers v (List.mem_of_getElem? hv) u (List.mem_of_getElem? hu) heq
    have hname : f.name ∈ u.program.names := List.mem_map_of_mem (List.mem_of_getElem? hf)
    rw [List.flatMap_map] at hnames
    exact index_eq_of_nodup_flatMap hnames hv hu (hprogram ▸ hname) hname
  have hfunction := Numbering.function?_recordedAs ho hdefined hunique hsize
  rwa [hmodule] at hfunction

/-- The tree of a trace is that of the mapping that its run leaves. -/
theorem callTree_of_traceRun {n : Numbering} {programName : String} {l l' : Loader} {test : Test}
    {trace : Trace} (h : Trace.run n programName l test = .ok (trace, l')) :
    trace.callTree = .ofMapping (TestRun.run programName
      (l.mapHost (·.beginTrace n.mappingSize)) test).2.host.recorder.mapping := by
  rw [Trace.run] at h
  split at h
  · obtain ⟨rfl, -⟩ := Prod.mk.inj (Except.ok.inj h)
    rfl
  · cases h

/-! ### Loaders -/

namespace Instruments

variable (h : Instruments config units plain objects image l₀ l)
  (h' : HoldsPlain config (units.set i { u with program := edited }) edited' image' l₀')
  (hi : units[i]? = some u) (hedit : u.program.editAt? q = some edited)

include h h' hi hedit

theorem defined_of_edit : edited'.map (·.defined) = plain.map (·.defined) :=
  Image.defined_of_differs h.instrumented h'.areOf (by simp) (differs_of_set hi hedit)

/-- Names have the same addresses in the plain image of the edited units. -/
theorem address?_of_edit (name : String) : l₀'.address? name = l.address? name := by
  obtain ⟨natives, hlinked⟩ := h.uninstrumented.isLinked
  obtain ⟨natives', hlinked'⟩ := h'.isLinked
  rw [h.address?_eq, h.uninstrumented.address?_eq, h'.address?_eq, Image.address?, Image.address?,
    hlinked.symbols, hlinked'.symbols, List.flatMap_def, List.flatMap_def,
    defined_of_edit h h' hi hedit]

theorem constructors_of_edit : l₀'.constructors = l.constructors := by
  obtain ⟨natives, hlinked⟩ := h.uninstrumented.isLinked
  obtain ⟨natives', hlinked'⟩ := h'.isLinked
  obtain ⟨_, -, hlinks⟩ := hlinked.links
  obtain ⟨_, -, hlinks'⟩ := hlinked'.links
  have hnames := hlinks'.constructors
  rw [Image.constructors_of_differs h.instrumented h'.areOf (by simp)
    (differs_of_set hi hedit)] at hnames
  have hsame := address?_of_edit h h' hi hedit
  simp only [h.address?_eq, h.uninstrumented.address?_eq, h'.address?_eq] at hsame
  have heq : List.Forall₂ (· = ·) image'.constructors image.constructors :=
    forall₂_of_common hnames hlinks.constructors fun name a a' _ ha ha' =>
      Option.some.inj (ha.symm.trans ((hsame name).trans ha'))
  rw [h.constructors_eq, Loader.constructors_of_image h'.image_eq,
    Loader.constructors_of_image h.uninstrumented.image_eq]
  exact List.forall₂_eq_eq_eq ▸ heq

variable (hvalid : ∀ u ∈ units, u.program.IsValid)
  (hquiet : ∀ u ∈ units, u.program.RegistersNothing)
  (hidentifiers : AreIdentified units)
  (hsize : (Numbering.of objects).mappingSize ≤ UInt32.size)

include hvalid hquiet hidentifiers hsize

/-- The edited units do without probes what the given ones do with them, until the function that is
edited is entered and has an entry. -/
theorem unprobed_of_edit : Unprobed
    (image.probedEnvironment (units.map (·.program)) plain (Numbering.of objects).offsetWord #[]
      config.maxDepth)
    (image'.environment ((units.set i { u with program := edited }).map (·.program)) #[]
      config.maxDepth)
    (HostState.Records (Numbering.of objects).mappingSize)
    (fun s => s.recorder.HasEntry
      ((Numbering.of objects).recordedAs u.identifier q.address.function))
    fun home index => home = i ∧ index = q.address.function := by
  obtain ⟨natives, hlinked⟩ := h.uninstrumented.isLinked
  obtain ⟨natives', hlinked'⟩ := h'.isLinked
  have hprograms : ∀ p ∈ units.map (·.program), p.IsValid := fun p hp =>
    (h.uninstrumented.wellFormed hvalid p hp).1
  have hprograms' : ∀ p ∈ units.map (·.program), p.RegistersNothing := by
    intro p hp
    obtain ⟨v, hv, rfl⟩ := List.mem_map.mp hp
    exact hquiet v hv
  have hquiets := Image.asks_isQuiet h.uninstrumented.areOf hprograms'
  have hprobes := h.hasNativeProbes
  refine Image.unprobed_of_differs h.instrumented hlinked h'.areOf hlinked' (by simp)
    (differs_of_set hi hedit) hprograms
    (HasEntry ((Numbering.of objects).recordedAs u.identifier q.address.function))
    (fun a n ha arguments memory s t hrel => hrel.answersAlike
      (Image.offers_of_link hquiets h.uninstrumented.link ha) (hprobes.table a n ha)
        arguments memory)
    (fun home index p f o hp hf ho s t hrel => ?_) (fun s t hrel => hrel.leave)
    fun n arguments memory s hlost => Native.keeps_hasEntry n arguments memory hlost
  rw [List.getElem?_map, Option.map_eq_some_iff] at hp
  obtain ⟨v, hv, rfl⟩ := hp
  obtain ⟨o', ho', hcompile⟩ :=
    exists_right_of_getElem? (mapM_eq_ok.mp h.uninstrumented.compiles) hv
  obtain rfl := Option.some.inj (ho.symm.trans ho')
  rw [Object.moduleId_of_compile hcompile]
  obtain ⟨hne, hlt⟩ := Numbering.lt_mappingSize
    (function?_of_compileUnits h.compiles h.uninstrumented.names_nodup hidentifiers hsize hv hf)
  -- entering the edited function is recorded; entering any other one keeps the relation
  by_cases havoided : home = i ∧ index = q.address.function
  · obtain ⟨rfl, rfl⟩ := havoided
    obtain rfl := Option.some.inj (hi.symm.trans hv)
    exact .inl (hrel.slots.hasEntry_enter hne hlt)
  · exact .inr ⟨havoided, hrel.enter hne⟩

variable (hedited : edited.IsValid)
  (hstands : l₀'.StandsFor l' (units.set i { u with program := edited }))

include hedited hstands

/-- What stands at an address of the instrumented image, a worker's
image has under the same name. -/
theorem atSame_of_edit {name : String} {a : Nat} (ha : l.address? name = some a) :
    ∃ a', l'.address? name = some a' ∧
      (Comparison.untilEntered (.of objects) u.identifier q.address.function
        (l'.config.maxDepth < 2 * config.maxDepth + 1)).AtSame l l' a a' := by
  obtain ⟨natives, hlinked⟩ := h.uninstrumented.isLinked
  obtain ⟨natives', hlinked'⟩ := h'.isLinked
  have haddress := h.uninstrumented.address?_eq name
  rw [← h.address?_eq, ha] at haddress
  have hrep := Image.represent_of_areOf h.uninstrumented.areOf
  -- the function in the given and in the edited units
  obtain ⟨home, index, p, f, hp, hf, rfl, href⟩ :=
    hlinked.exists_function_of_address? hrep haddress.symm
  obtain ⟨p', hp', hd⟩ := differs_of_set hi hedit home p hp
  obtain ⟨g, hg, hgname, hsignature, -⟩ := hd.function index f hf
  obtain ⟨a₁, ha₁, href₁⟩ :=
    hlinked'.exists_address?_of_function (Image.represent_of_areOf h'.areOf) hp' hg
  -- what the worker has under its name
  rw [List.getElem?_map, Option.map_eq_some_iff] at hp'
  obtain ⟨v, hv, rfl⟩ := hp'
  obtain ⟨a₂, a', ha₂, ha', ref, href₂, href', htype₂, htype', halike⟩ :=
    hstands.actsAs v (List.mem_of_getElem? hv) g (List.mem_of_getElem? hg)
  rw [h'.address?_eq] at ha₂
  rw [hgname] at ha'
  obtain rfl := Option.some.inj (ha₁.symm.trans ha₂)
  rw [h'.function?_eq] at href₂
  obtain rfl := Option.some.inj (href₁.symm.trans href₂)
  have hvalid' : ∀ w ∈ units.set i { u with program := edited }, w.program.IsValid := by
    intro w hw
    rcases List.mem_or_eq_of_mem_set hw with hw | rfl
    · exact hvalid w hw
    · exact hedited
  have htype : l.type? (.defined home index) = some (funcType f.signature) := by
    rw [h.type?_eq hvalid, h.uninstrumented.type?_eq]
    exact hlinked.type?_of_represent hrep hp hf #[] _
  have hfunction : (image.probedEnvironment (units.map (·.program)) plain
      (Numbering.of objects).offsetWord #[] config.maxDepth).function? home index = some f :=
    function?_eq_some.mpr ⟨p, hp, hf⟩
  rw [hsignature] at htype' halike
  refine ⟨a', ha', .same ?_ href' (htype'.trans htype.symm) ?_⟩
  · rw [h.function?_eq, h.uninstrumented.function?_eq, href]
  intro arguments memory s t r hlength hrel hfinishes
  rw [htype, Option.map_some, Option.some_inj] at hlength
  rw [h.finishes_iff hvalid] at hfinishes
  rcases (unprobed_of_edit h h' hi hedit hvalid hquiet hidentifiers hsize).finishes hfunction hrel
    hfinishes with hlost | ⟨t', hfinishes', hrel'⟩
  · exact .inl hlost
  by_cases hover : r.1 = .trapped .stackOverflow
  · exact .inr (.inl ⟨hover, trivial⟩)
  obtain ⟨r', hr', hsame⟩ := (halike arguments memory t (r.1, r.2.1, t') hlength.symm hover).2
    ((h'.finishes_iff hvalid').mpr hfinishes')
  rcases hsame with rfl | ⟨hover', hdepth⟩
  · exact .inr (.inr (.inl ⟨t', hr', hrel'⟩))
  · rw [h'.config_eq] at hdepth
    exact .inr (.inr (.inr ⟨hdepth, r', hover', hr'⟩))

/-- All that a run of the instrumented image calls is compared with what a worker's image has. -/
theorem compares_of_edit : (Comparison.untilEntered (.of objects) u.identifier q.address.function
    (l'.config.maxDepth < 2 * config.maxDepth + 1)).Compares l l' where
  image := ⟨_, h.image_eq⟩
  image' := by
    obtain ⟨_, image, -, himage, -⟩ := hstands.memory
    exact ⟨image, himage⟩
  destructors_eq := fun _ _ hrel => hrel.agrees.1
  output_eq := fun _ _ hrel => hrel.agrees.2
  cleared := fun _ _ hrel => ⟨⟨rfl, hrel.agrees.2⟩, rfl, hrel.slots⟩
  taken := fun _ _ hrel => ⟨⟨hrel.agrees.1, rfl⟩, hrel.none_pending, hrel.slots⟩
  constructors := by
    obtain ⟨names, hnames, hnames', -⟩ := hstands.constructors
    rw [constructors_of_edit h h' hi hedit] at hnames
    refine forall₂_of_common hnames hnames' fun name a a' _ ha ha' => ?_
    rw [address?_of_edit h h' hi hedit] at ha
    obtain ⟨a'', ha'', hsame⟩ :=
      atSame_of_edit h h' hi hedit hvalid hquiet hidentifiers hsize hedited hstands ha
    obtain rfl := Option.some.inj (ha'.symm.trans ha'')
    exact hsame
  destructors := fun s _ hrel d hd => by
    rw [hrel.none_pending] at hd
    cases hd
  none_of_small := fun _ _ _ hrel => hrel.none_pending
  keeps := fun n arguments memory _ hlost => Native.keeps_hasEntry n arguments memory hlost

/-- A traced run whose entry is there is followed by a run in a worker's image, unless the function
that is edited was entered, or the stack was used up. -/
theorem follows_of_edit {test : Test} {a : Nat} (ha : l.address? test.entry = some a)
    {memory : Memory} {s t : HostState} {steps : Nat} {result : RunResult} {l₂ : Loader}
    (hrel : s.resetRun.Records (Numbering.of objects).mappingSize t.resetRun)
    (hrun : TestRun.run TestRun.defaultProgramName (l.inState memory s steps) test = (result, l₂)) :
    l₂.host.recorder.HasEntry ((Numbering.of objects).recordedAs u.identifier q.address.function) ∨
      (∃ output, result = .outcome ⟨.timeout, output⟩ ∨ result = .outcome ⟨.crashed, output⟩) ∨
      (∃ n, ∀ k,
        (TestRun.run TestRun.defaultProgramName (l'.inState memory t (n + k)) test).1 = result) ∨
      (l'.config.maxDepth < 2 * config.maxDepth + 1 ∧
        ∃ n, ∀ k,
          TestRun.Overflows TestRun.defaultProgramName (l'.inState memory t (n + k)) test) := by
  have hcompares :=
    compares_of_edit h h' hi hedit hvalid hquiet hidentifiers hsize hedited hstands
  obtain ⟨a', ha', hsame⟩ :=
    atSame_of_edit h h' hi hedit hvalid hquiet hidentifiers hsize hedited hstands ha
  have hfollows : (Comparison.untilEntered (.of objects) u.identifier q.address.function
      (l'.config.maxDepth < 2 * config.maxDepth + 1)).Follows l l' _ _ _ memory t
        (TestRun.run TestRun.defaultProgramName (l.inState memory s steps) test) :=
    Comparison.follows_run hcompares (.inr ⟨a, a', ha, ha', hsame⟩) _ hrel
  rw [hrun] at hfollows
  -- only an entry of the function, the clock or the stack can tell the two images apart
  cases hfollows with
  | lost hlost => exact .inl hlost
  | excused hexcused =>
    obtain ⟨status, output, rfl, hstatus | ⟨hstatus, -⟩⟩ := hexcused
    · cases hstatus
      exact .inr (.inl ⟨output, .inl rfl⟩)
    · cases hstatus
      exact .inr (.inl ⟨output, .inr rfl⟩)
  | alike n hn => exact .inr (.inr (.inl ⟨n, fun k => congrArg Prod.fst (hn k)⟩))
  | overflows hsmall n hn => exact .inr (.inr (.inr ⟨hsmall, n, hn⟩))

/-- A test that passes when it is traced passes in a worker's image, too, unless the function that
is edited has a node, or the worker's stack is used up. -/
theorem passes_of_trace (hhost : l.host = HostState.empty.resetRun)
    (hhost' : l'.host = HostState.empty.resetRun) {timeout : Option Duration} {test : Test}
    {trace : Trace} {l₂ : Loader} {output : String}
    (htrace : Trace.run (.of objects) TestRun.defaultProgramName (l.setDeadline timeout) test
      = .ok (trace, l₂)) (hpass : trace.result = .outcome ⟨.passed, output⟩) :
    (∃ k ∈ trace.callTree.functions, ∃ name,
      (Numbering.of objects).function? k = some ⟨u.identifier, q.address.function, name⟩) ∨
      TestRun.EndsWith l' test ⟨.passed, output⟩ ∨
      (l'.config.maxDepth < 2 * config.maxDepth + 1 ∧
        ∃ n, ∀ k, TestRun.Overflows TestRun.defaultProgramName (l'.withSteps (n + k)) test) := by
  obtain ⟨hresult, -⟩ := run_of_traceRun htrace
  have htree := callTree_of_traceRun htrace
  obtain ⟨steps, hsteps⟩ := l.exists_withSteps timeout
  rw [hsteps, Loader.withSteps_eq h.image_eq, TestRun.mapHost_inState] at hresult htree
  rw [hpass] at hresult
  -- a test that passes has an entry
  have hverdict : TestRun.HasVerdict (.outcome ⟨.passed, output⟩) := hasVerdict_of_isPass rfl
  rw [hresult] at hverdict
  obtain ⟨a, -, -, ha, -⟩ := TestRun.canRun_of_hasVerdict hverdict
  rw [Loader.address?_inState] at ha
  have hrel : (l.host.beginTrace (Numbering.of objects).mappingSize).resetRun.Records
      (Numbering.of objects).mappingSize l'.host.resetRun := by
    rw [hhost, hhost']
    exact ⟨⟨rfl, rfl⟩, rfl, Array.size_replicate, by simp [HostState.resetRun]⟩
  -- both images begin with the same memory
  obtain ⟨_, worker, himage', hworker, hmemory⟩ := hstands.memory
  obtain rfl := Option.some.inj (h'.image_eq.symm.trans himage')
  rw [h'.memory_eq, ← h.uninstrumented.memory_eq] at hmemory
  simp only [TestRun.EndsWith, Loader.withSteps_eq hworker, ← hmemory]
  rcases follows_of_edit h h' hi hedit hvalid hquiet hidentifiers hsize hedited hstands ha hrel
    (Prod.ext hresult.symm rfl) with hentry | ⟨_, heq | heq⟩ | hends | hover
  · obtain ⟨f, -, hf, -⟩ := Program.editAt?_eq_some.mp hedit
    have hfunction := function?_of_compileUnits h.compiles h.uninstrumented.names_nodup
      hidentifiers hsize hi hf
    have hnode := CallTree.mem_functions_of_entry (Numbering.lt_mappingSize hfunction).1 hentry
    rw [← htree] at hnode
    exact .inl ⟨_, hnode, f.name, hfunction⟩
  · cases heq
  · cases heq
  · exact .inr (.inl hends)
  · exact .inr (.inr hover)

end Instruments

/-- A test that passes without coming to a function passes with every mutant of the function, and
writes the same.  The test is traced in a fresh image of the instrumented units, and run in a fresh
image of the units that are prepared for some points, with the mutant of one of them bound and
everything else as it was: if the call tree has no node for the function that the point is in, the
test ends with the same outcome, given steps enough, unless the stack is too small for the calls
that stubs add and is used up.  The units are valid, call nothing of the engine's and register
nothing to be run at the end, do not use the names that preparation adds, have identifiers that tell
their programs apart, as those of new units do (`AreNew.areIdentified`), and have no more functions
than there are words to number them. -/
theorem passes_of_unreached {points : List MutationPoint} {prepared : List ProgramUnit}
    {c : WorkerContext} {t : Trampolines} {start l₂ : Loader} {timeout : Option Duration}
    {test : Test} {trace : Trace} {output : String}
    (hvalid : ∀ u ∈ units, u.program.validate = .ok ())
    (hcalls : ∀ u ∈ units, u.program.CallsNothingInternal)
    (hquiet : ∀ u ∈ units, u.program.RegistersNothing)
    (hidentifiers : AreIdentified units)
    (hfresh : ∀ name, Program.generated points name → ∀ u ∈ units, ¬ u.program.Mentions name)
    (hpoints : ∀ q ∈ points, ∃ u ∈ units, u.role = .source ∧ q.IsOf u)
    (hobjects : compileUnits units true = .ok objects)
    (hsize : (Numbering.of objects).mappingSize ≤ UInt32.size)
    (hload : (Loader.new config).load objects (Resolver.withProbes (.of objects)) = (l, .ok ()))
    (htrace : Trace.run (.of objects) TestRun.defaultProgramName (l.setDeadline timeout) test
      = .ok (trace, l₂)) (hpass : trace.result = .outcome ⟨.passed, output⟩)
    (hprepares : prepareUnits points units = .ok (prepared, c.keys))
    (hcompiles : compileUnits prepared false = .ok c.objects)
    (hpages : config.memoryPages = c.loader.memoryPages) (hsetup : c.setup = .ok (t, start))
    (hq : q ∈ points) (hbind : WorkerContext.bindMutant t start q = .ok l')
    (hunreached : ∀ k ∈ trace.callTree.functions, ∀ f, (Numbering.of objects).function? k = some f →
      ¬ (f.moduleId = q.moduleId ∧ f.localIndex = q.address.function)) :
    TestRun.EndsWith l' test ⟨.passed, output⟩ ∨
      (c.loader.maxDepth < 2 * config.maxDepth + 1 ∧
        ∃ n, ∀ k, TestRun.Overflows TestRun.defaultProgramName (l'.withSteps (n + k)) test) := by
  have hunits : ∀ u ∈ units, u.program.IsValid := fun u hu =>
    Program.isValid_of_validate (hvalid u hu)
  obtain ⟨image₁, hlink, hl⟩ := (Loader.load_eq_ok rfl).mp hload
  obtain ⟨_, hlinked⟩ := Image.isLinked_of_link hlink
  have hmutates : Mutates points units c := {
    valid := hunits
    cells := fun u hu => hlinked.cells_eq_nil (represent_of_compileUnits hobjects)
      (fun name => (Resolver.withProbes_ne _ name).1) (List.mem_map_of_mem hu)
    fresh := hfresh
    isOf := hpoints
    prepares := ⟨prepared, hprepares, hcompiles⟩ }
  -- the three images: instrumented, edited, and with the mutant bound
  obtain ⟨l₀, hloads⟩ := hmutates.exists_loads hsetup hpages
  obtain ⟨plain, image, l₁, hload', h⟩ := exists_instruments hcalls hloads hobjects
  obtain rfl : l = l₁ := congrArg Prod.fst (hload.symm.trans hload')
  obtain ⟨i, u, edited, l₀', hi, hof, hedit, hedited, hloads', hstands⟩ :=
    hmutates.exists_standsFor hsetup hpages hq hbind
  obtain ⟨edited', image', h'⟩ := hloads'.exists_holdsPlain
  have hbound := WorkerContext.isSetUp_of_bindMutant (WorkerContext.isSetUp_of_setup hsetup) hbind
  rw [← hbound.config_eq]
  refine (Instruments.passes_of_trace h h' hi hedit hunits hquiet hidentifiers hsize hedited hstands
    (by rw [hl]; rfl) hbound.host htrace hpass).resolve_left fun ⟨k, hnode, name, hfunction⟩ => ?_
  exact hunreached k hnode _ hfunction ⟨hof.exists_function.1.symm, rfl⟩

end Engine

/-- A function that the test of `doubling` does not call. -/
def decreasing : Program where
  functions := [{
    name := "decrease", numParams := 1, numLocals := 1, returnType := .int
    blocks := [⟨[⟨.sub, some 1, [.register 0, .immediate (.int 1)], none⟩,
      ⟨.ret, none, [.register 1], none⟩]⟩] }]
  declarations := []
  constructors := []
  version := 1

def decreasingUnit : ProgramUnit := ⟨decreasing, .source, "decrease.json", "d"⟩

def decreasingUnits : List ProgramUnit := decreasingUnit :: doublingUnits

/-- The points of both functions. -/
def decreasingPoints : List MutationPoint := decreasingUnit.points [.mathSub] 0 ++ doublingPoints

/-- A worker that has room for stubs. -/
def decreasingContext : WorkerContext :=
  let (prepared, keys) :=
    (Engine.prepareUnits decreasingPoints decreasingUnits).toOption.getD ([], [])
  ⟨⟨1, 20⟩, (Engine.compileUnits prepared false).toOption.getD [], keys, [], .fork, .default⟩

/-- The test passes with every mutant of the function that it does not call. -/
theorem decreasing_passes : decreasingUnit.points [.mathSub] 0 ≠ [] ∧ ∃ t start,
    decreasingContext.setup = .ok (t, start) ∧ ∀ q ∈ decreasingUnit.points [.mathSub] 0, ∃ l',
      WorkerContext.bindMutant t start q = .ok l' ∧
        TestRun.EndsWith l' (.new "doubles" "check" []) ⟨.passed, ""⟩ := by
  have hvalid : ∀ u ∈ decreasingUnits, u.program.validate = .ok () := by decide +kernel
  have hinternal : ∀ u ∈ decreasingUnits, ∀ i ∈ u.program.instructions,
      i.callee.all (SymbolName.isInternal · = false) = true := by decide +kernel
  have hcalls : ∀ u ∈ decreasingUnits, u.program.CallsNothingInternal :=
    fun u hu i hi name hname => by
    have hnot := hinternal u hu i hi
    rw [hname] at hnot
    simpa using hnot
  have hquiet : ∀ u ∈ decreasingUnits, u.program.RegistersNothing := by
    unfold Program.RegistersNothing
    decide +kernel
  have hidentifiers : Engine.AreIdentified decreasingUnits := by decide +kernel
  have hnames : ∀ q ∈ decreasingPoints, ∀ name ∈ [SymbolName.cell q.key, SymbolName.preserved q.key,
      q.identifier], ∀ u ∈ decreasingUnits, ¬ u.program.Mentions name := by decide +kernel
  have hfresh : ∀ name, Program.generated decreasingPoints name →
      ∀ u ∈ decreasingUnits, ¬ u.program.Mentions name := by
    rintro name ⟨q, hq, hname⟩
    exact hnames q hq name (by simpa using hname)
  have hpoints : ∀ q ∈ decreasingPoints, ∃ u ∈ decreasingUnits, u.role = .source ∧
      q.operator.point? u q.address = some { q with reachableTests := [] } := by decide +kernel
  -- the test passes, and its tree has no node for the function
  have htraced : (Engine.compileUnits decreasingUnits true).toOption.any (fun objects =>
      decide ((Numbering.of objects).mappingSize = 4) &&
      (((Loader.new ⟨1, 8⟩).load objects (Resolver.withProbes (.of objects))).2.isOk &&
      (Trace.run (.of objects) TestRun.defaultProgramName (((Loader.new ⟨1, 8⟩).load objects
        (Resolver.withProbes (.of objects))).1.setDeadline none)
        (.new "doubles" "check" [])).toOption.any
          fun r => decide (r.1.result = .outcome ⟨.passed, ""⟩) &&
            r.1.callTree.functions.all fun k => ((Numbering.of objects).function? k).all fun f =>
              decide (¬ (f.moduleId = "d" ∧ f.localIndex = 0)))) = true := by
    decide +kernel
  have hbinds : decreasingContext.setup.toOption.any (fun s =>
      (decreasingUnit.points [.mathSub] 0).all fun q =>
        decide (q.moduleId = "d" ∧ q.address.function = 0) &&
          (WorkerContext.bindMutant s.1 s.2 q).isOk) = true := by decide +kernel
  obtain ⟨objects, hobjects, htraced⟩ := exists_of_any htraced
  simp only [Bool.and_eq_true, decide_eq_true_eq] at htraced
  obtain ⟨hsize, hloads, htraced⟩ := htraced
  generalize hload : (Loader.new ⟨1, 8⟩).load objects (Resolver.withProbes (.of objects)) = loaded
    at hloads htraced
  obtain ⟨l, result⟩ := loaded
  obtain rfl : result = .ok () := eq_ok_of_isOk hloads ()
  obtain ⟨⟨trace, l₂⟩, htrace, htraced⟩ := exists_of_any htraced
  simp only [Bool.and_eq_true, decide_eq_true_eq, List.all_eq_true, Option.all_eq_true] at htraced
  obtain ⟨hpass, hunreached⟩ := htraced
  obtain ⟨⟨t, start⟩, hsetup, hbinds⟩ := exists_of_any hbinds
  refine ⟨by decide +kernel, t, start, hsetup, fun q hq => ?_⟩
  obtain ⟨hfunction, hbind⟩ := Bool.and_eq_true_iff.mp (List.all_eq_true.mp hbinds q hq)
  obtain ⟨hmodule, hindex⟩ := of_decide_eq_true hfunction
  obtain ⟨l', hbind⟩ : ∃ l', WorkerContext.bindMutant t start q = .ok l' :=
    ⟨_, eq_ok_of_isOk hbind l⟩
  have hpasses := Engine.passes_of_unreached hvalid hcalls hquiet hidentifiers hfresh
    hpoints hobjects
    (by rw [hsize]; decide) hload htrace hpass (eq_ok_of_isOk (by decide +kernel) ([], []))
    (eq_ok_of_isOk (by decide +kernel) []) rfl hsetup (List.mem_append_left _ hq) hbind
    (fun k hk f hf => by
      rw [hmodule, hindex]
      exact hunreached k hk f hf)
  -- the worker's stack is deep enough for twice as many calls and one
  exact ⟨l', hbind, hpasses.resolve_right fun hsmall => absurd hsmall.1 (by decide)⟩

end MutationAnalysis
