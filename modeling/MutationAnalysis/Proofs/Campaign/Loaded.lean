/-
What a baseline says of its units and tests.

Before any mutant is made, the units are linked with the functions of the host, instrumented or not.
That they can be says everything of them that linking needs (`Image.CanLink`): their functions have
different names, what they call is defined by one of them or by the host, and they call through no
cells.  And a test that passes has an entry among the functions of the units, of a type that tests
have, and arguments that fit (`Test.HasEntry`).

* `Image.IsLinked.canRun_iff`: which tests can be run in a linked image;
* `Engine.canLink_of_baseline`: what holds of the units;
* `Engine.hasEntry_of_baseline`: what holds of the tests that pass.
-/
import MutationAnalysis.Proofs.Campaign.Baseline
import MutationAnalysis.Proofs.Image.Programs
import MutationAnalysis.Proofs.TestRun.States

namespace MutationAnalysis

open Wasm Lowering

/-! ### Names that belong to the engine -/

namespace SymbolName

theorem after?_eq_some {start s t : String} :
    after? start s = some t ↔ s.toList = start.toList ++ t.toList := by
  rw [after?, Option.map_eq_some_iff]
  simp only [List.isPrefixOf?_eq_some_iff_append_eq]
  constructor
  · rintro ⟨rest, hrest, rfl⟩
    rw [String.toList_ofList, hrest]
  · intro h
    exact ⟨t.toList, h.symm, String.ofList_toList⟩

/-- Offsets belong to the engine. -/
theorem isInternal_of_moduleOfIndexOffset? {name moduleId : String}
    (h : moduleOfIndexOffset? name = some moduleId) : isInternal name = true := by
  have hstart : indexOffsetStart.toList = reserved.toList ++ "function_index_offset_".toList := by
    decide
  have hname := after?_eq_some.mp h
  have hafter : after? reserved name = some ("function_index_offset_" ++ moduleId) := by
    rw [after?_eq_some, hname, hstart, String.toList_append, List.append_assoc]
  rw [isInternal, hafter]
  rfl

end SymbolName

/-- The probes and the offsets belong to the engine, and are neither cells nor addresses. -/
theorem Numbering.resolver_eq_some {n : Numbering} {name : String} {d : Definition}
    (h : n.resolver name = some d) : SymbolName.isInternal name = true ∧
      (∀ c, d ≠ .cell c) ∧ ∀ a, d ≠ .address a := by
  rw [resolver] at h
  split at h
  · rename_i hname
    obtain rfl := Option.some.inj h
    exact ⟨hname ▸ by decide, by simp, by simp⟩
  · split at h
    · rename_i hname
      obtain rfl := Option.some.inj h
      exact ⟨hname ▸ by decide, by simp, by simp⟩
    · obtain ⟨moduleId, hmodule, h⟩ := Option.bind_eq_some_iff.mp h
      obtain ⟨offset, -, h⟩ := Option.bind_eq_some_iff.mp h
      obtain rfl := Option.some.inj h
      exact ⟨SymbolName.isInternal_of_moduleOfIndexOffset? hmodule, by simp, by simp⟩

namespace Resolver

/-- What the units of a baseline are linked with. -/
def withProbes (n : Numbering) : Resolver := .chain [.overrides, .hostProcess, n.resolver]

theorem withProbes_eq (n : Numbering) (name : String) :
    withProbes n name = (plain name).or (n.resolver name) :=
  chain_eq n.resolver name

theorem withProbes_ne (n : Numbering) (name : String) :
    (∀ c, withProbes n name ≠ some (.cell c)) ∧ ∀ a, withProbes n name ≠ some (.address a) := by
  have hne : ∀ d, withProbes n name = some d → (∀ c, d ≠ .cell c) ∧ ∀ a, d ≠ .address a := by
    intro d hd
    rw [withProbes_eq, Option.or_eq_some_iff] at hd
    rcases hd with hd | ⟨-, hd⟩
    · obtain ⟨⟨m, rfl⟩, -⟩ := plain_eq_some hd
      exact ⟨by simp, by simp⟩
    · exact (Numbering.resolver_eq_some hd).2
  exact ⟨fun c hc => (hne _ hc).1 c rfl, fun a ha => (hne _ ha).2 a rfl⟩

theorem withProbes_eq_plain {n : Numbering} {name : String}
    (h : SymbolName.isInternal name = false) : withProbes n name = plain name := by
  rw [withProbes_eq]
  cases hname : n.resolver name with
  | none => exact Option.or_none
  | some d =>
    rw [(Numbering.resolver_eq_some hname).1] at h
    cases h

end Resolver

/-! ### Tests -/

/-- The test's entry is a function of one of the programs, of a type that entries have, and the
arguments fit if it takes any. -/
def Test.HasEntry (test : Test) (programs : List Program) : Prop :=
  ∃ p ∈ programs, ∃ f ∈ p.functions, f.name = test.entry ∧
    (f.numParams.toNat = 0 ∨ (f.numParams.toNat = 2 ∧
      ∃ bytes, Arguments.layout? (TestRun.defaultProgramName :: test.arguments) = some bytes))

/-- A test keeps its entry where every function has one of its name and signature. -/
theorem Test.HasEntry.transfer {test : Test} {programs programs' : List Program}
    (h : test.HasEntry programs) (hkept : ∀ p ∈ programs, ∀ f ∈ p.functions, ∃ p' ∈ programs',
      ∃ g ∈ p'.functions, g.name = f.name ∧ g.signature = f.signature) :
    test.HasEntry programs' := by
  obtain ⟨p, hp, f, hf, hname, hparams⟩ := h
  obtain ⟨p', hp', g, hg, hgname, hsignature⟩ := hkept p hp f hf
  have hnum : g.numParams = f.numParams := congrArg Signature.numParams hsignature
  exact ⟨p', hp', g, hg, hgname.trans hname, hnum ▸ hparams⟩

/-- The tests that can be run in a linked image are those whose entry is in one of its programs. -/
theorem Image.IsLinked.canRun_iff {pages : Nat} {probed : Bool} {programs : List Program}
    {objects : List Object} {resolve : Resolver} {image : Image} {natives : List Native}
    (h : IsLinked pages objects resolve image natives) (ho : Represent probed programs objects)
    {l : Loader} (himage : l.image = some image) (test : Test) :
    TestRun.CanRun l TestRun.defaultProgramName test ↔ test.HasEntry programs := by
  simp only [TestRun.CanRun, Loader.address?_of_image himage, Loader.function?_of_image himage,
    Loader.type?_of_image himage]
  constructor
  · rintro ⟨a, ref, type, ha, href, htype, hparams⟩
    obtain ⟨j, i, p, f, hp, hf, hname, hfound⟩ := h.exists_function_of_address? ho ha
    obtain rfl := Option.some.inj (href.symm.trans hfound)
    rw [h.type?_of_represent ho hp hf] at htype
    obtain rfl := Option.some.inj htype
    exact ⟨p, List.mem_of_getElem? hp, f, List.mem_of_getElem? hf, hname, hparams⟩
  · rintro ⟨p, hp, f, hf, hname, hparams⟩
    obtain ⟨j, hj⟩ := List.mem_iff_getElem?.mp hp
    obtain ⟨i, hi⟩ := List.mem_iff_getElem?.mp hf
    obtain ⟨a, ha, hfound⟩ := h.exists_address?_of_function ho hj hi
    exact ⟨a, _, _, hname ▸ ha, hfound, h.type?_of_represent ho hj hi _ _, hparams⟩

namespace Engine

variable {e : Engine} {units : List ProgramUnit} {tests : List Test} {baseline : List BaselineTest}
  {objects : List Object} {probed : Bool}

theorem represent_of_compileUnits (h : compileUnits units probed = .ok objects) :
    Image.Represent probed (units.map (·.program)) objects := by
  rw [Image.Represent, List.forall₂_map_left_iff]
  refine (mapM_eq_ok.mp h).imp fun u o ho => ?_
  obtain ⟨l, hl⟩ := Object.exists_represents ho
  exact ⟨u.identifier, l, hl⟩

/-- A traced run is a run whose trace begins empty; only the host sees that it was traced. -/
theorem run_of_traceRun {n : Numbering} {programName : String} {l l' : Loader} {test : Test}
    {trace : Trace} (h : Trace.run n programName l test = .ok (trace, l')) :
    trace.result = (TestRun.run programName (l.mapHost (·.beginTrace n.mappingSize)) test).1 ∧
      ∃ host, l' = { (TestRun.run programName (l.mapHost (·.beginTrace n.mappingSize)) test).2 with
        host } := by
  rw [Trace.run] at h
  by_cases hloaded : l.isLoaded = true
  · rw [if_pos hloaded] at h
    obtain ⟨rfl, rfl⟩ := Prod.mk.inj (Except.ok.inj h)
    exact ⟨rfl, _, rfl⟩
  · rw [if_neg hloaded] at h
    cases h

/-- A traced run leaves the loader as it was loaded. -/
theorem mayBecome_of_traceRun {n : Numbering} {programName : String}
    {l₀ l l' : Loader} {test : Test}
    {trace : Trace} (hl : l₀.MayBecome l) (h : Trace.run n programName l test = .ok (trace, l')) :
    l₀.MayBecome l' := by
  obtain ⟨-, host, rfl⟩ := run_of_traceRun h
  exact (TestRun.mayBecome_run (hl.mapHost _) _ _).withHost host

/-- A pass is a verdict. -/
theorem hasVerdict_of_isPass {r : RunResult} (h : isPass r = true) : TestRun.HasVerdict r := by
  rintro output rfl
  cases h

/-- Tests that pass can be run in the image that they were traced in. -/
theorem Traces.canRun {numbering : Numbering} {l₀ l : Loader}
    (h : e.Traces units numbering l tests baseline) (hl : l₀.MayBecome l) :
    ∀ b ∈ baseline, TestRun.CanRun l₀ TestRun.defaultProgramName b.test := by
  induction h with
  | nil => simp
  | passed htrace hpass _ ih =>
    have hstart := hl.setDeadline (some (e.config.testTimeout .zero))
    have hverdict := hasVerdict_of_isPass hpass
    rw [(run_of_traceRun htrace).1] at hverdict
    have hcan := (TestRun.canRun_iff_of_mayBecome (hstart.mapHost _)).mp
      (TestRun.canRun_of_hasVerdict hverdict)
    exact List.forall_mem_cons.mpr ⟨hcan, ih (mayBecome_of_traceRun hstart htrace)⟩
  | failed htrace _ _ ih => exact ih (mayBecome_of_traceRun (hl.setDeadline _) htrace)

/-- A baseline's units are linked, and its tests are traced in their image. -/
theorem exists_isLinked_of_baseline (h : e.baseline units tests = .ok baseline) :
    ∃ objects image natives l, Image.Represent e.config.callTree (units.map (·.program)) objects ∧
      Image.IsLinked e.loader.memoryPages objects (Resolver.withProbes (.of objects))
        image natives ∧
      l.image = some image ∧ e.traceTests units (.of objects) l tests = .ok baseline := by
  obtain ⟨objects, hobjects, h⟩ := bind_eq_ok.mp h
  dsimp only at h
  split at h
  · cases h
  · rename_i l hload
    obtain ⟨image, hlink, rfl⟩ := (Loader.load_eq_ok rfl).mp hload
    obtain ⟨natives, hlinked⟩ := Image.isLinked_of_link hlink
    exact ⟨objects, image, natives, _, represent_of_compileUnits hobjects, hlinked, rfl, h⟩

/-- The units of a baseline call through no cells. -/
theorem cells_eq_nil_of_baseline (h : e.baseline units tests = .ok baseline) {u : ProgramUnit}
    (hu : u ∈ units) : u.program.cells = [] := by
  obtain ⟨objects, image, natives, l, ho, hlinked, -, -⟩ := exists_isLinked_of_baseline h
  exact hlinked.cells_eq_nil ho (fun name => (Resolver.withProbes_ne _ name).1)
    (List.mem_map_of_mem hu)

/-- The tests that pass have entries in the units. -/
theorem hasEntry_of_baseline (h : e.baseline units tests = .ok baseline) :
    ∀ b ∈ baseline, b.test.HasEntry (units.map (·.program)) := by
  obtain ⟨objects, image, natives, l, ho, hlinked, himage, htrace⟩ := exists_isLinked_of_baseline h
  exact fun b hb => (hlinked.canRun_iff ho himage b.test).mp
    ((traces_of_traceTests htrace).canRun (Loader.mayBecome_self himage) b hb)

/-- The units can be linked with the functions of the host, unless one asks for a function under a
name that belongs to the engine. -/
theorem canLink_of_baseline (h : e.baseline units tests = .ok baseline)
    (hreserved : ∀ u ∈ units, ∀ name ∈ u.program.undefinedSymbols,
      SymbolName.isInternal name = false) :
    Image.CanLink e.loader.memoryPages [] (units.map (·.program)) := by
  obtain ⟨objects, image, natives, l, ho, hlinked, -, -⟩ := exists_isLinked_of_baseline h
  refine Image.canLink_of_isLinked ho hlinked (Resolver.withProbes_ne _) fun p hp name hname => ?_
  obtain ⟨u, hu, rfl⟩ := List.mem_map.mp hp
  exact Resolver.withProbes_eq_plain (hreserved u hu name hname)

end Engine

end MutationAnalysis
