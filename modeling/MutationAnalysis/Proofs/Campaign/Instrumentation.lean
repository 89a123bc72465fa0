/-
Instrumented units.

Units that are compiled with probes are linked where they are without, and each function stands at
the same address.  A test comes to the same in both images, with the same output and the same memory
in the end: the states of both hosts differ in what was recorded only.  Whatever calls the functions
of the instrumented image, a call that returns told the probes of a whole call under the number of
the function, so it left the stack of functions under way as it was.

* `Engine.HoldsPlain.finishes_iff`: what calls in an image of units without probes end with;
* `Engine.instrumented_of_compileUnits`: the objects of units with probes and without;
* `Engine.instrumented_runsFollow`: what both images have in common.
-/
import MutationAnalysis.Proofs.Campaign.Loaded
import MutationAnalysis.Proofs.Campaign.InPlace
import MutationAnalysis.Proofs.Campaign.Parallel
import MutationAnalysis.Proofs.Image.Transparency
import MutationAnalysis.Proofs.TestRun.Comparison

namespace MutationAnalysis

open Wasm Lowering Interpreter Recorder

/-! ### Offsets -/

namespace Numbering

/-- The offset of a module as its code finds it. -/
def offsetWord (n : Numbering) (moduleId : String) : Word :=
  UInt32.ofNat ((n.offset? moduleId).getD 0)

theorem resolver_indexOffset {n : Numbering} {moduleId : String} {offset : Nat}
    (h : n.offset? moduleId = some offset) : n.resolver (SymbolName.indexOffset moduleId)
      = some (.constant (n.offsetWord moduleId).toInt32) := by
  have hmodule : SymbolName.moduleOfIndexOffset? (SymbolName.indexOffset moduleId)
      = some moduleId := by
    rw [SymbolName.moduleOfIndexOffset?, SymbolName.after?_eq_some, SymbolName.indexOffset,
      String.toList_append]
  -- the names of the probes are those of no offset
  have hne : ∀ probe, SymbolName.moduleOfIndexOffset? probe = none →
      SymbolName.indexOffset moduleId ≠ probe := by
    rintro _ hprobe rfl
    rw [hmodule] at hprobe
    cases hprobe
  rw [resolver, if_neg (hne _ (by decide)), if_neg (hne _ (by decide)), hmodule]
  simp [h, offsetWord]

end Numbering

namespace Resolver

variable {n : Numbering}

/-- The host defines nothing under the engine's own names. -/
theorem withProbes_of_resolver {name : String} {d : Definition} (h : n.resolver name = some d) :
    withProbes n name = some d := by
  have hnone : plain name = none := by
    cases hd : plain name with
    | none => rfl
    | some d =>
      obtain ⟨_, -, hmem⟩ := exists_offered_of_plain hd
      have hoffered : ∀ e ∈ offered, SymbolName.isInternal e.1 = false := by decide
      have hinternal := (Numbering.resolver_eq_some h).1
      rw [hoffered _ hmem] at hinternal
      cases hinternal
  rw [withProbes_eq, hnone, Option.none_or, h]

/-- The probes are found under their names. -/
theorem probes_withProbes (n : Numbering) : Resolver.plain.Probes (Resolver.withProbes n) where
  same := fun _ hname => withProbes_eq_plain hname
  enter := withProbes_of_resolver rfl
  leave := withProbes_of_resolver rfl

/-- The offset of a module that is numbered is found under its name. -/
theorem hasOffset_withProbes {moduleId : String} {offset : Nat}
    (h : n.offset? moduleId = some offset) : (withProbes n).HasOffset n.offsetWord moduleId :=
  withProbes_of_resolver (Numbering.resolver_indexOffset h)

end Resolver

/-! ### Calls -/

/-- Each call of a function that returns, whoever makes it and whatever is under way, leaves the
stack of functions under way as it was, and the probes are told of a whole call under a number. -/
def Loader.TellsCalls (l : Loader) (home index number : Nat) : Prop :=
  ∃ image type body, l.image = some image ∧
    (image.linkage l.cells l.config.maxDepth).body? home index = some (type, body) ∧
    ∀ arguments callers depth memory state memory' state',
      Machine.Returns (image.linkage l.cells l.config.maxDepth) callers.length
        ⟨.start home type body arguments, callers, depth, memory, state⟩ memory' state' →
      state'.recorder.stack = state.recorder.stack ∧ ∃ events, IsCall number events ∧
        state'.recorder = events.foldl record state.recorder ∧
        Machine.Returns ((image.linkage l.cells l.config.maxDepth).withHost Native.observed)
          callers.length ⟨.start home type body arguments, callers, depth, memory, (state, [])⟩
            memory'
          (state', events)

/-! ### Images -/

/-- The objects of units that are compiled without probes and with them. -/
theorem Engine.instrumented_of_compileUnits {units : List ProgramUnit} {plain objects : List Object}
    (hcalls : ∀ u ∈ units, u.program.CallsNothingInternal)
    (hplain : Engine.compileUnits units false = .ok plain)
    (hobjects : Engine.compileUnits units true = .ok objects) :
    Image.Instrumented (Resolver.withProbes (.of objects)) (Numbering.of objects).offsetWord
      (units.map (·.program)) plain objects := by
  have hoffset : ∀ o ∈ objects, (Resolver.withProbes (.of objects)).HasOffset
      (Numbering.of objects).offsetWord o.moduleId := fun o ho => by
    obtain ⟨offset, hoffset⟩ := Numbering.exists_offset ho
    exact Resolver.hasOffset_withProbes hoffset
  generalize Resolver.withProbes (.of objects) = resolve at hoffset ⊢
  generalize (Numbering.of objects).offsetWord = offset at hoffset ⊢
  replace hplain := mapM_eq_ok.mp hplain
  replace hobjects := mapM_eq_ok.mp hobjects
  induction hplain generalizing objects with
  | nil =>
    cases hobjects
    exact .nil
  | cons ho _ ih =>
    cases hobjects with
    | cons ho' hrest =>
      rw [List.forall_mem_cons] at hcalls hoffset
      have hinstruments := Object.instruments_of_compile ho ho'
      exact .cons hinstruments hcalls.1 (hinstruments.moduleId_eq ▸ hoffset.1)
        (ih hcalls.2 hoffset.2 hrest)

/-- Units that are compiled without probes are compiled with them, if the names of
their offsets are not too long. -/
theorem Engine.exists_compileUnits_instrumented {units : List ProgramUnit} {plain : List Object}
    (hvalid : ∀ u ∈ units, u.program.IsValid)
    (hnames : ∀ u ∈ units, (SymbolName.indexOffset u.identifier).utf8ByteSize ≤ maxNameBytes)
    (hplain : Engine.compileUnits units false = .ok plain) :
    ∃ objects, Engine.compileUnits units true = .ok objects := by
  refine exists_mapM_eq_ok fun u hu => ?_
  obtain ⟨o, -, ho⟩ := exists_right_of_mem (mapM_eq_ok.mp hplain) hu
  exact Object.exists_instrumented (hvalid u hu) ho (hnames u hu)

/-! ### Plain images -/

/-- A loader holds a plain image of units, with what it is linked from. -/
structure Engine.HoldsPlain (config : LoaderConfig) (units : List ProgramUnit) (plain : List Object)
    (image : Image) (l : Loader) : Prop where
  compiles : Engine.compileUnits units false = .ok plain
  link : Image.link config.memoryPages 0 plain Resolver.plain = .ok image
  config_eq : l.config = config
  cells_eq : l.cells = #[]
  image_eq : l.image = some image

namespace Engine.HoldsPlain

variable {config : LoaderConfig} {units : List ProgramUnit} {plain : List Object} {image : Image}
  {l : Loader} (h : Engine.HoldsPlain config units plain image l)

include h

theorem areOf : Image.AreOf (units.map (·.program)) plain := areOf_of_compileUnits h.compiles

theorem isLinked : ∃ natives,
    Image.IsLinked config.memoryPages plain Resolver.plain image natives :=
  Image.isLinked_of_link h.link

theorem names_nodup : ((units.map (·.program)).flatMap Program.names).Nodup := by
  obtain ⟨natives, hlinked⟩ := h.isLinked
  exact Image.names_of_areOf h.areOf ▸ hlinked.names_nodup

theorem memory_eq : image.memory = .blank config.memoryPages := by
  obtain ⟨natives, hlinked⟩ := h.isLinked
  exact hlinked.memory

theorem address?_eq (name : String) : l.address? name = image.address? name :=
  Loader.address?_of_image h.image_eq name

theorem function?_eq (a : Nat) : l.function? a = image.function? a :=
  Loader.function?_of_image h.image_eq a

theorem type?_eq (ref : FuncRef Native) :
    l.type? ref = (image.linkage #[] config.maxDepth).type? ref := by
  rw [Loader.type?_of_image h.image_eq, h.cells_eq, h.config_eq]

variable (hvalid : ∀ u ∈ units, u.program.IsValid)

include hvalid

theorem wellFormed : ∀ p ∈ units.map (·.program), p.IsValid ∧ p.SeparatesCells := by
  obtain ⟨natives, hlinked⟩ := h.isLinked
  intro p hp
  have hcells : p.cells = [] :=
    hlinked.cells_eq_nil (Image.represent_of_areOf h.areOf) Resolver.plain_ne_cell hp
  obtain ⟨u, hu, rfl⟩ := List.mem_map.mp hp
  refine ⟨hvalid u hu, fun name _ hmem => ?_⟩
  rw [hcells] at hmem
  cases hmem

/-- What is found in the image. -/
theorem agrees : Agrees (image.linkage #[] config.maxDepth)
    (image.environment (units.map (·.program)) #[] config.maxDepth) := by
  obtain ⟨natives, hlinked⟩ := h.isLinked
  exact hlinked.agrees h.areOf IsSetUp.suits_plain (h.wellFormed hvalid) config.maxDepth

theorem finishes_iff {ref : FuncRef Native} {arguments : List Word} {memory : Memory}
    {s : HostState} {r : Halt HostState} : l.Finishes ref arguments memory s r ↔
      (image.environment (units.map (·.program)) #[] config.maxDepth).Finishes
        .lowered ref arguments memory s r := by
  rw [Loader.finishes_iff h.image_eq, h.cells_eq, h.config_eq,
    Interpreter.finishes_iff (h.agrees hvalid)]

end Engine.HoldsPlain

/-- Units are loaded as a plain image. -/
theorem Loads.exists_holdsPlain {config : LoaderConfig} {units : List ProgramUnit} {l : Loader}
    (h : Loads config units l) : ∃ plain image, Engine.HoldsPlain config units plain image l := by
  obtain ⟨plain, hplain, hload⟩ := h
  obtain ⟨image, hlink, rfl⟩ := (Loader.load_eq_ok rfl).mp hload
  exact ⟨plain, image, hplain, hlink, rfl, rfl, rfl⟩

/-! ### Instrumented images -/

/-- A plain and an instrumented loader of the same units, with what they are linked from. -/
structure Engine.Instruments (config : LoaderConfig) (units : List ProgramUnit)
    (plain objects : List Object) (image : Image) (l₀ l : Loader) : Prop where
  uninstrumented : Engine.HoldsPlain config units plain image l₀
  compiles : Engine.compileUnits units true = .ok objects
  instrumented : Image.Instrumented (Resolver.withProbes (.of objects))
    (Numbering.of objects).offsetWord (units.map (·.program)) plain objects
  config_eq : l.config = config
  cells_eq : l.cells = #[]
  image_eq : l.image = some (image.withProbes (Numbering.of objects).offsetWord objects)

/-- Units that can be loaded can be loaded with probes, if they can be compiled so. -/
theorem Engine.exists_instruments {config : LoaderConfig} {units : List ProgramUnit}
    {objects : List Object} {l₀ : Loader}
    (hcalls : ∀ u ∈ units, u.program.CallsNothingInternal) (h : Loads config units l₀)
    (hobjects : Engine.compileUnits units true = .ok objects) : ∃ plain image l,
      (Loader.new config).load objects (Resolver.withProbes (.of objects)) = (l, .ok ()) ∧
      Engine.Instruments config units plain objects image l₀ l := by
  obtain ⟨plain, image, hholds⟩ := h.exists_holdsPlain
  have hinstrumented := Engine.instrumented_of_compileUnits hcalls hholds.compiles hobjects
  refine ⟨plain, image, _, (Loader.load_eq_ok rfl).mpr ⟨image.withProbes _ objects, ?_, rfl⟩,
    hholds, hobjects, hinstrumented, rfl, rfl, rfl⟩
  show Image.link config.memoryPages 0 objects _ = _
  rw [Image.link_instrumented (Resolver.probes_withProbes _) hinstrumented, hholds.link]
  rfl

/-- An instrumented image of valid units that call nothing of the
engine's comes with a plain one. -/
theorem Engine.exists_instruments_of_load {config : LoaderConfig} {units : List ProgramUnit}
    {objects : List Object} {l : Loader} (hvalid : ∀ u ∈ units, u.program.IsValid)
    (hcalls : ∀ u ∈ units, u.program.CallsNothingInternal)
    (hobjects : Engine.compileUnits units true = .ok objects)
    (hload : (Loader.new config).load objects (Resolver.withProbes (.of objects)) = (l, .ok ())) :
    ∃ plain image l₀, Engine.Instruments config units plain objects image l₀ l := by
  obtain ⟨plain, hplain⟩ : ∃ plain, Engine.compileUnits units false = .ok plain := by
    refine exists_mapM_eq_ok fun u hu => ?_
    obtain ⟨o', -, ho'⟩ := exists_right_of_mem (mapM_eq_ok.mp hobjects) hu
    exact Object.exists_plain (hvalid u hu) ho'
  have hinstrumented := Engine.instrumented_of_compileUnits hcalls hplain hobjects
  obtain ⟨image', hlink', rfl⟩ := (Loader.load_eq_ok rfl).mp hload
  rw [Image.link_instrumented (Resolver.probes_withProbes _) hinstrumented] at hlink'
  change (Image.link config.memoryPages 0 plain Resolver.plain).map _ = _ at hlink'
  cases hlink : Image.link config.memoryPages 0 plain Resolver.plain with
  | error e =>
    rw [hlink] at hlink'
    cases hlink'
  | ok image =>
    rw [hlink] at hlink'
    obtain rfl := Except.ok.inj hlink'
    exact ⟨plain, image, { Loader.new config with image := some image },
      ⟨hplain, hlink, rfl, rfl, rfl⟩, hobjects, hinstrumented, rfl, rfl, rfl⟩

namespace Engine.Instruments

variable {config : LoaderConfig} {units : List ProgramUnit} {plain objects : List Object}
  {image : Image} {l₀ l : Loader} (h : Engine.Instruments config units plain objects image l₀ l)

include h

theorem address?_eq (name : String) : l.address? name = l₀.address? name := by
  rw [h.uninstrumented.address?_eq, Loader.address?_of_image h.image_eq]
  rfl

theorem function?_eq (a : Nat) : l.function? a = l₀.function? a := by
  rw [h.uninstrumented.function?_eq, Loader.function?_of_image h.image_eq]
  rfl

theorem constructors_eq : l.constructors = l₀.constructors := by
  rw [Loader.constructors_of_image h.uninstrumented.image_eq,
    Loader.constructors_of_image h.image_eq]
  rfl

/-- The functions of the host that have an address in the images. -/
theorem exists_entry {a : Nat} {ref : FuncRef Native} (href : l₀.function? a = some ref)
    (n : Native) (hn : ref = .host n) :
    ∃ k : Nat, (image.probedEnvironment (units.map (·.program)) plain
      (Numbering.of objects).offsetWord #[] config.maxDepth).table[k]? = some (some (.host n)) := by
  rw [h.uninstrumented.function?_eq] at href
  exact ⟨a, hn ▸ Option.join_eq_some_iff.mp href⟩

/-- All functions of the instrumented image have probes, and none calls any. -/
theorem hasNativeProbes : (image.probedEnvironment (units.map (·.program)) plain
    (Numbering.of objects).offsetWord #[] config.maxDepth).HasNativeProbes :=
  Image.hasNativeProbes_of_link h.instrumented h.uninstrumented.link #[] config.maxDepth

variable (hvalid : ∀ u ∈ units, u.program.IsValid)

include hvalid

/-- What is found in the instrumented image. -/
theorem agrees : Agrees ((image.withProbes (Numbering.of objects).offsetWord objects).linkage #[]
      config.maxDepth)
    (image.probedEnvironment (units.map (·.program)) plain (Numbering.of objects).offsetWord #[]
      config.maxDepth) := by
  obtain ⟨natives, hlinked⟩ := h.uninstrumented.isLinked
  refine (hlinked.realizes_instrumented h.instrumented IsSetUp.suits_plain config.maxDepth).agrees
    (h.uninstrumented.wellFormed hvalid) Native.host_isTyped fun home probes hprobes => ?_
  obtain ⟨o, -, rfl⟩ := Option.map_eq_some_iff.mp hprobes
  exact ⟨rfl, rfl⟩

/-- Both images have functions of the same types. -/
theorem type?_eq (ref : FuncRef Native) : l.type? ref = l₀.type? ref := by
  have htype : l.type? ref
      = ((image.withProbes (Numbering.of objects).offsetWord objects).linkage #[]
      config.maxDepth).type? ref := by
    rw [Loader.type?_of_image h.image_eq, h.cells_eq, h.config_eq]
  rw [htype, h.uninstrumented.type?_eq, (h.agrees hvalid).type?_eq,
    (h.uninstrumented.agrees hvalid).type?_eq]
  cases ref <;> rfl

theorem finishes_iff {ref : FuncRef Native} {arguments : List Word} {memory : Memory}
    {s : HostState} {r : Halt HostState} : l.Finishes ref arguments memory s r ↔
      (image.probedEnvironment (units.map (·.program)) plain (Numbering.of objects).offsetWord #[]
        config.maxDepth).Finishes .lowered ref arguments memory s r := by
  rw [Loader.finishes_iff h.image_eq, h.cells_eq, h.config_eq,
    Interpreter.finishes_iff (h.agrees hvalid)]

/-- What was recorded is all that the probes make a difference to. -/
theorem unprobed : Unprobed
    (image.probedEnvironment (units.map (·.program)) plain (Numbering.of objects).offsetWord #[]
      config.maxDepth)
    (image.environment (units.map (·.program)) #[] config.maxDepth) HostState.AgreesWith
    (fun _ => False) fun _ _ => False := by
  obtain ⟨natives, hlinked⟩ := h.uninstrumented.isLinked
  have hprograms : ∀ p ∈ units.map (·.program), p.IsValid := fun p hp =>
    (h.uninstrumented.wellFormed hvalid p hp).1
  have hprobes := h.hasNativeProbes
  refine Image.unprobed_of_differs h.instrumented hlinked h.instrumented.areOf hlinked rfl
    (fun home p hp => ⟨p, hp, .refl p⟩) hprograms (fun _ => False)
    (fun a n ha arguments memory s t => Native.answersAlike (hprobes.table a n ha) arguments memory)
    (fun _ _ _ _ _ _ _ _ s t hrel => .inr ⟨id, ?_⟩) (fun s t hrel => hrel) fun _ _ _ _ => False.elim
  obtain ⟨_, _, _⟩ := s
  exact hrel

/-- What stands at an address does the same with probes and without. -/
theorem atSame (a : Nat) : Comparison.upToRecord.AtSame l l₀ a a := by
  cases href : l₀.function? a with
  | none => exact .none ((h.function?_eq a).trans href) href
  | some ref =>
    refine .same ((h.function?_eq a).trans href) href (h.type?_eq hvalid ref).symm
      fun arguments memory s t r _ hrel hfinishes => ?_
    simp only [h.finishes_iff hvalid, h.uninstrumented.finishes_iff hvalid] at hfinishes ⊢
    rcases (h.unprobed hvalid).finishes_ref (h.exists_entry href) (fun _ _ _ => id) hrel
      hfinishes with hlost | halike
    · exact hlost.elim
    · exact .inr (.inr (.inl halike))

/-- And the same without probes and with them. -/
theorem atSame_converse (a : Nat) : Comparison.upToRecord.AtSame l₀ l a a := by
  cases href : l₀.function? a with
  | none => exact .none href ((h.function?_eq a).trans href)
  | some ref =>
    refine .same href ((h.function?_eq a).trans href) (h.type?_eq hvalid ref)
      fun arguments memory s t r _ hrel hfinishes => ?_
    simp only [h.finishes_iff hvalid, h.uninstrumented.finishes_iff hvalid] at hfinishes ⊢
    obtain ⟨t', hfinishes', hrel'⟩ := (h.unprobed hvalid).finishes_ref_converse
      (h.exists_entry href) (fun _ _ _ => id) ⟨hrel.1.symm, hrel.2.symm⟩ hfinishes
    exact .inr (.inr (.inl ⟨t', hfinishes', hrel'.1.symm, hrel'.2.symm⟩))

/-- Calls of a function that return tell the probes of whole calls, under the offset of the
function's module plus the function's index. -/
theorem tellsCalls {home index offset : Nat} {u : ProgramUnit} {f : Function} {o : Object}
    (hu : units[home]? = some u) (hf : u.program.functions[index]? = some f)
    (ho : plain[home]? = some o)
    (hoffset : (Numbering.of objects).offset? o.moduleId = some offset) :
    l.TellsCalls home index (UInt32.ofNat (offset + index)).toNat := by
  have hp : (units.map (·.program))[home]? = some u.program := by
    rw [List.getElem?_map, hu]
    rfl
  have hfunction : (image.probedEnvironment (units.map (·.program)) plain
      (Numbering.of objects).offsetWord #[] config.maxDepth).function? home index = some f :=
    function?_eq_some.mpr ⟨u.program, hp, hf⟩
  obtain ⟨layout, hprovides⟩ := (h.agrees hvalid).provides home u.program hp
  obtain ⟨codes, -, hbody⟩ := hprovides.body index f hf
  have hnumber : (image.probedEnvironment (units.map (·.program)) plain
      (Numbering.of objects).offsetWord #[] config.maxDepth).number home index
        = (UInt32.ofNat (offset + index)).toNat := by
    rw [Environment.number, Image.probes_probedEnvironment ho, Option.map_some, Option.getD_some,
      Numbering.offsetWord, hoffset, Option.getD_some, UInt32.ofNat_add, UInt32.add_comm]
  refine ⟨_, funcType f.signature, bodyOf layout index f codes, h.image_eq, ?_, ?_⟩
  · rw [h.cells_eq, h.config_eq]
    exact hbody
  · intro arguments callers depth memory state memory' state' hreturns
    rw [h.cells_eq, h.config_eq] at hreturns ⊢
    obtain ⟨events, hcall, hrecorder, hobserved⟩ :=
      (h.agrees hvalid).tells h.hasNativeProbes hfunction hbody hreturns
    rw [hnumber] at hcall
    refine ⟨?_, events, hcall, hrecorder, hobserved⟩
    rw [hrecorder, hcall.balanced.stack_eq]

end Engine.Instruments

/-- Units that are valid, call nothing of the engine's and are linked without probes are compiled
and linked with them, unless the name of an offset is too long.  Their functions have the same
addresses then, and a test comes to the same, with the same output and the same memory in the end,
unless it runs out of time.  Calls that return leave the stack of functions under way as it was, and
their probes are told the same number when they begin and when they end: the offset of the module
plus the index of the function. -/
theorem Engine.instrumented_runsFollow {config : LoaderConfig} {units : List ProgramUnit}
    {l₀ : Loader} (hvalid : ∀ u ∈ units, u.program.validate = .ok ())
    (hcalls : ∀ u ∈ units, u.program.CallsNothingInternal)
    (hnames : ∀ u ∈ units, (SymbolName.indexOffset u.identifier).utf8ByteSize ≤ maxNameBytes)
    (hloads : Loads config units l₀) : ∃ objects l, Engine.compileUnits units true = .ok objects ∧
      (Loader.new config).load objects (Resolver.withProbes (.of objects)) = (l, .ok ()) ∧
      (∀ name, l.address? name = l₀.address? name) ∧ l.RunsFollow l₀ ∧ l₀.RunsFollow l ∧
      ∀ (home index : Nat) (u : ProgramUnit) (f : Function), units[home]? = some u →
        u.program.functions[index]? = some f → ∃ offset,
          (Numbering.of objects).offset? u.identifier = some offset ∧
            l.TellsCalls home index (UInt32.ofNat (offset + index)).toNat := by
  have hunits : ∀ u ∈ units, u.program.IsValid := fun u hu =>
    Program.isValid_of_validate (hvalid u hu)
  obtain ⟨objects, hobjects⟩ : ∃ objects, Engine.compileUnits units true = .ok objects := by
    obtain ⟨plain, hplain, -⟩ := hloads
    exact Engine.exists_compileUnits_instrumented hunits hnames hplain
  obtain ⟨plain, image, l, hload, h⟩ := Engine.exists_instruments hcalls hloads hobjects
  refine ⟨objects, l, hobjects, hload, h.address?_eq, ?_, ?_, fun home index u f hu hf => ?_⟩
  · exact Comparison.runsFollow ⟨_, h.image_eq⟩ ⟨_, h.uninstrumented.image_eq⟩
      (fun name => (h.address?_eq name).symm) h.constructors_eq.symm (h.atSame hunits)
  · exact Comparison.runsFollow ⟨_, h.uninstrumented.image_eq⟩ ⟨_, h.image_eq⟩ h.address?_eq
      h.constructors_eq (h.atSame_converse hunits)
  · obtain ⟨o', ho', hcompile'⟩ := exists_right_of_getElem? (mapM_eq_ok.mp hobjects) hu
    obtain ⟨o, ho, hcompile⟩ :=
      exists_right_of_getElem? (mapM_eq_ok.mp h.uninstrumented.compiles) hu
    obtain ⟨offset, hoffset⟩ := Numbering.exists_offset (List.mem_of_getElem? ho')
    rw [Object.moduleId_of_compile hcompile'] at hoffset
    refine ⟨offset, hoffset, h.tellsCalls hunits hu hf ho ?_⟩
    rw [Object.moduleId_of_compile hcompile]
    exact hoffset

/-- A test that passes with probes passes without, and its functions are told of as
the first and the second one. -/
theorem doubling_instrumented : ∃ objects l l₀, Loads ⟨1, 50⟩ doublingUnits l₀ ∧
    (Loader.new ⟨1, 50⟩).load objects (Resolver.withProbes (.of objects)) = (l, .ok ()) ∧
    l.TellsCalls 0 0 1 ∧ l.TellsCalls 1 0 2 ∧ ∃ n, ∀ k,
      (TestRun.run TestRun.defaultProgramName (l₀.inState (.blank 1) .empty (n + k))
        (.new "doubles" "check" [])).1 = .outcome ⟨.passed, ""⟩ := by
  have hvalid : ∀ u ∈ doublingUnits, u.program.validate = .ok () := by decide +kernel
  have hnames : ∀ u ∈ doublingUnits,
      (SymbolName.indexOffset u.identifier).utf8ByteSize ≤ maxNameBytes := by decide +kernel
  have hinternal : ∀ u ∈ doublingUnits, ∀ i ∈ u.program.instructions,
      i.callee.all (SymbolName.isInternal · = false) = true := by decide +kernel
  have hcalls : ∀ u ∈ doublingUnits, u.program.CallsNothingInternal :=
    fun u hu i hi name hname => by
    have hnot := hinternal u hu i hi
    rw [hname] at hnot
    simpa using hnot
  have hpasses : (Engine.compileUnits doublingUnits true).toOption.all (fun objects =>
      decide ((TestRun.run TestRun.defaultProgramName
        (((Loader.new ⟨1, 50⟩).load objects (Resolver.withProbes (.of objects))).1.inState
          (.blank 1)
          .empty 1000) (.new "doubles" "check" [])).1 = .outcome ⟨.passed, ""⟩)) = true := by
    decide +kernel
  have hoffsets : (Engine.compileUnits doublingUnits true).toOption.all (fun objects =>
      decide (["m", "n"].map (Numbering.of objects).offset? = [some 1, some 2])) = true := by
    decide +kernel
  obtain ⟨l₀, hloads⟩ : ∃ l₀, Loads ⟨1, 50⟩ doublingUnits l₀ :=
    ⟨_, _, eq_ok_of_isOk (by decide +kernel) [],
      Prod.ext rfl (eq_ok_of_isOk (by decide +kernel) ())⟩
  obtain ⟨objects, l, hobjects, hload, -, hfollow, -, htells⟩ :=
    Engine.instrumented_runsFollow hvalid hcalls hnames hloads
  rw [hobjects] at hpasses hoffsets
  have hpassed := of_decide_eq_true hpasses
  obtain ⟨hfirst, hsecond⟩ := List.cons_eq_cons.mp (of_decide_eq_true hoffsets)
  rw [hload] at hpassed
  refine ⟨objects, l, l₀, hloads, hload, ?_, ?_, ?_⟩
  · obtain ⟨offset, hoffset, htold⟩ := htells 0 0 _ _ rfl rfl
    obtain rfl := Option.some.inj (hoffset.symm.trans hfirst)
    exact htold
  · obtain ⟨offset, hoffset, htold⟩ := htells 1 0 _ _ rfl rfl
    obtain rfl := Option.some.inj (hoffset.symm.trans (List.cons_eq_cons.mp hsecond).1)
    exact htold
  · cases hrun : TestRun.run TestRun.defaultProgramName (l.inState (.blank 1) .empty 1000)
        (.new "doubles" "check" []) with
    | mk result l₁ =>
      rw [hrun] at hpassed
      obtain rfl : result = .outcome ⟨.passed, ""⟩ := hpassed
      obtain ⟨_, _, _, _, n, -, hn⟩ := hfollow _ _ _ _ .empty _ _ _ hrun (by simp)
      exact ⟨n, fun k => by rw [hn k]⟩

end MutationAnalysis
