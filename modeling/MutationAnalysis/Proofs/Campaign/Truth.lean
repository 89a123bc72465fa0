/-
What records say of mutants.

A worker runs the tests of a point in an image with the bodies of all mutants, in which the
point's mutant is bound.  That image stands for a fresh one of the given units with the point's
edit made where the point stands (`LoadsEdited`): calls end alike in both, so constructors do,
and so does a whole run of a test.  Points leave no trace in the image, and copies of the process
none in the worker, so what is recorded of a point and a test is what that run gives, however
many points and workers there are.

* `Loader.StandsFor.endsWith`: a run of a test ends alike in the units that a loader stands for;
* `Engine.Mutates.exists_standsFor`: what a worker's image stands for while a mutant is bound;
* `Engine.MayRun.truthful`: what every record of a report says.
-/
import MutationAnalysis.Proofs.Campaign.InPlace
import MutationAnalysis.Proofs.Campaign.Prepared
import MutationAnalysis.Proofs.Campaign.Verdicts
import MutationAnalysis.Proofs.Image.Natives
import MutationAnalysis.Proofs.TestRun.Runner

namespace MutationAnalysis

open Wasm Lowering

/-! ### Loaded units -/

namespace Loads

variable {config : LoaderConfig} {units : List ProgramUnit} {l₀ : Loader}
  (h : Loads config units l₀)

include h

/-- What is loaded is an image in a new loader. -/
theorem exists_image : ∃ objects image, Engine.compileUnits units false = .ok objects ∧
    Image.link config.memoryPages (Loader.new config).generation objects Resolver.plain
      = .ok image ∧
    l₀ = { Loader.new config with host := HostState.empty.resetRun, image := some image } := by
  obtain ⟨objects, hobjects, hload⟩ := h
  obtain ⟨image, hlink, rfl⟩ := (Loader.load_eq_ok rfl).mp hload
  exact ⟨objects, image, hobjects, hlink, rfl⟩

/-- Calls of functions of units that register none leave none to run at the end,
and do not end the process. -/
theorem finishes_keeps (hquiet : ∀ u ∈ units, u.program.RegistersNothing) {name : String} {a : Nat}
    {ref : FuncRef Native} (ha : l₀.address? name = some a) (href : l₀.function? a = some ref)
    {arguments : List Word} {memory : Memory} {state : HostState} {r : Halt HostState}
    (hfinishes : l₀.Finishes ref arguments memory state r) (hstate : state.destructors = []) :
    r.2.2.destructors = [] ∧ ∀ code, r.1 ≠ .raised (.endProcess code) := by
  obtain ⟨objects, image, hobjects, hlink, rfl⟩ := h.exists_image
  have hprograms : ∀ p ∈ units.map (·.program), p.RegistersNothing := by
    intro p hp
    obtain ⟨u, hu, rfl⟩ := List.mem_map.mp hp
    exact hquiet u hu
  obtain ⟨natives, hlinked⟩ := Image.isLinked_of_link hlink
  -- an address that a name has is that of a function of the units, and none of the host's
  obtain ⟨j, i, o, -, -, hfound⟩ := hlinked.exists_of_address? ha
  obtain rfl := Option.some.inj (href.symm.trans hfound)
  have hkeeps := Image.keeps_of_link (areOf_of_compileUnits hobjects) hprograms hlink
    (Loader.new config).cells config.maxDepth
  obtain ⟨hdestructors, hsignals⟩ := ((Loader.finishes_iff rfl).mp hfinishes).keeps hkeeps hstate
  exact ⟨hdestructors, fun code heq => hsignals _ heq code rfl⟩

end Loads

namespace Loader.StandsFor

variable {config : LoaderConfig} {units : List ProgramUnit} {l₀ l : Loader}
  (h : l₀.StandsFor l units) (hloads : Loads config units l₀)
  (hquiet : ∀ u ∈ units, u.program.RegistersNothing) (hdepth : l.config.maxDepth = config.maxDepth)

include h hloads hquiet hdepth

/-- What calls of a function end with, they end with in the units that are loaded. -/
theorem runsAs {u : ProgramUnit} (hu : u ∈ units) {f : Function} (hf : f ∈ u.program.functions) :
    ∃ a₀ a, l₀.address? f.name = some a₀ ∧ l.address? f.name = some a ∧
      l₀.RunsAs l a₀ a (funcType f.signature) := by
  obtain ⟨a₀, a, ha₀, ha, ref, href₀, href, htype₀, htype, halike⟩ := h.actsAs u hu f hf
  refine ⟨a₀, a, ha₀, ha, ref, href₀, href, htype₀, htype, ?_⟩
  intro arguments memory state r hlength hstack hstate hfinishes
  obtain ⟨r', hfinishes₀, hr'⟩ := (halike arguments memory state r hlength hstack).1 hfinishes
  have hsame : l₀.config.maxDepth = config.maxDepth := by
    obtain ⟨objects, image, -, -, rfl⟩ := hloads.exists_image
    rfl
  -- stubs only add calls, so the fresh image does not need more of the stack
  obtain rfl : r' = r := hr'.resolve_right fun hover => by omega
  exact ⟨hfinishes₀, hloads.finishes_keeps hquiet ha₀ href₀ hfinishes₀ hstate⟩

theorem constructors_runsAs : List.Forall₂
    (fun a₀ a => ∃ type : FuncType, type.params = 0 ∧ l₀.RunsAs l a₀ a type)
    l₀.constructors l.constructors := by
  obtain ⟨names, hnames₀, hnames, hmem⟩ := h.constructors
  refine forall₂_of_common hnames₀ hnames fun name a₀ a hname ha₀ ha => ?_
  obtain ⟨u, hu, f, hf, rfl, hparams⟩ := hmem name hname
  obtain ⟨a₀', a', ha₀', ha', hruns⟩ := h.runsAs hloads hquiet hdepth hu hf
  obtain rfl := Option.some.inj (ha₀.symm.trans ha₀')
  obtain rfl := Option.some.inj (ha.symm.trans ha')
  refine ⟨_, ?_, hruns⟩
  show f.numParams.toNat = 0
  rw [hparams]
  rfl

end Loader.StandsFor

/-! ### Runs -/

theorem Loader.withSteps_eq {l : Loader} {image : Image} (himage : l.image = some image) (n : Nat) :
    l.withSteps n = l.inState image.memory l.host n := by
  obtain ⟨_, _, _, _, _, _⟩ := l
  subst himage
  rfl

/-- A deadline is a number of steps. -/
theorem Loader.exists_withSteps (l : Loader) (timeout : Option Duration) :
    ∃ n, l.setDeadline timeout = l.withSteps n := by
  rw [setDeadline]
  exact ⟨_, rfl⟩

/-- A test ends with an outcome in a loader that is given steps enough. -/
def TestRun.EndsWith (l : Loader) (test : Test) (o : Outcome) : Prop :=
  ∃ n, ∀ k, (run defaultProgramName (l.withSteps (n + k)) test).1 = .outcome o

theorem TestRun.EndsWith.unique {l : Loader} {test : Test} {o o' : Outcome} (h : EndsWith l test o)
    (h' : EndsWith l test o') : o = o' := by
  obtain ⟨n, hn⟩ := h
  obtain ⟨m, hm⟩ := h'
  have hsame := hm n
  rw [Nat.add_comm m n, hn m] at hsame
  exact RunResult.outcome.inj hsame

/-- A run that ends in time, without using up the stack, ends alike in the units that are loaded. -/
theorem Loader.StandsFor.endsWith {config : LoaderConfig} {units : List ProgramUnit} {l₀ l : Loader}
    (h : l₀.StandsFor l units) (hloads : Loads config units l₀)
    (hquiet : ∀ u ∈ units, u.program.RegistersNothing)
    (hdepth : l.config.maxDepth = config.maxDepth)
    (hhost : l.host = HostState.empty.resetRun) {test : Test}
    (hentry : test.HasEntry (units.map (·.program))) {steps : Nat} {result : RunResult}
    (hstack : ¬ TestRun.Overflows TestRun.defaultProgramName (l.withSteps steps) test)
    (hrun : (TestRun.run TestRun.defaultProgramName (l.withSteps steps) test).1 = result)
    (htime : ∀ output, result ≠ .outcome ⟨.timeout, output⟩) (hvalid : TestRun.HasVerdict result) :
    ∃ o, result = .outcome o ∧ TestRun.EndsWith l₀ test o := by
  obtain ⟨p, hp, f, hf, hname, -⟩ := hentry
  obtain ⟨u, hu, rfl⟩ := List.mem_map.mp hp
  obtain ⟨a₀, a, ha₀, ha, hruns⟩ := h.runsAs hloads hquiet hdepth hu hf
  obtain ⟨image₀, image, himage₀, himage, hmemory⟩ := h.memory
  have hhost₀ : l₀.host = l.host := by
    obtain ⟨objects, image, -, -, rfl⟩ := hloads.exists_image
    exact hhost.symm
  rw [hname] at ha₀ ha
  rw [Loader.withSteps_eq himage] at hstack hrun
  obtain ⟨⟨o, rfl⟩, n, hn⟩ := TestRun.run_runsAs himage₀ himage
    (h.constructors_runsAs hloads hquiet hdepth) ha₀ ha hruns hstack hrun htime hvalid
  refine ⟨o, rfl, n, fun k => ?_⟩
  rw [Loader.withSteps_eq himage₀, hmemory, hhost₀]
  exact hn k

/-! ### Results -/

namespace Sandbox

/-- What comes back of a run in a copy of the process, unless the run was
too long or ended its process. -/
theorem eq_of_forked {r : RunResult} {o : Outcome} (h : forked (bodyOfRun r) = o)
    (htime : o.status ≠ .timeout) (hvalid : o.status ≠ .invalid) :
    (∀ output, r ≠ .outcome ⟨.timeout, output⟩) ∧ TestRun.HasVerdict r ∧
      ∀ o', r = .outcome o' → o'.status ≠ .failFast → o' = o := by
  subst h
  refine ⟨?_, ?_, ?_⟩
  · rintro output rfl
    exact htime rfl
  · rintro output rfl
    exact hvalid rfl
  · rintro ⟨status, output⟩ rfl hfast
    cases status with
    | timeout => exact absurd rfl htime
    | failFast => exact absurd rfl hfast
    | passed | failed | crashed | invalid => rfl

end Sandbox

namespace WorkerContext

variable {c : WorkerContext} {q : MutationPoint} {l : Loader} {name : String}

/-- A test uses up the stack when the mutant of a point is bound. -/
def Overflows (c : WorkerContext) (q : MutationPoint) (name : String) : Prop :=
  ∃ t l l' test, c.setup = .ok (t, l) ∧ bindMutant t l q = .ok l' ∧ c.test? name = some test ∧
    TestRun.Overflows TestRun.defaultProgramName
      (l'.setDeadline (some (c.config.testTimeout test.baselineTime))) test

/-- What is recorded of a test that runs in a copy of the process is what the run gave, if it was
not too long and did not end its process. -/
theorem exists_run_of_runTest (hfork : c.sandbox = .fork) {x : Execution}
    (hx : x = (c.runTest l name).1) (hvalid : x.status ≠ .invalid) (htime : x.status ≠ .timeout) :
    ∃ test result, c.test? name = some test ∧
      (TestRun.run TestRun.defaultProgramName
        (l.setDeadline (some (c.config.testTimeout test.baselineTime))) test).1 = result ∧
      TestRun.HasVerdict result ∧ (∀ output, result ≠ .outcome ⟨.timeout, output⟩) ∧
      ∀ o, result = .outcome o → o = ⟨x.status, x.output⟩ := by
  rw [runTest] at hx
  cases htest : c.test? name with
  | none =>
    rw [htest] at hx
    exact absurd (congrArg Execution.status hx) hvalid
  | some test =>
    have hforked : Sandbox.forked (Sandbox.bodyOfRun (TestRun.run TestRun.defaultProgramName
        (l.setDeadline (some (c.config.testTimeout test.baselineTime))) test).1)
          = ⟨x.status, x.output⟩ := by
      rw [hx, htest, hfork]
      dsimp only
      rw [Sandbox.fork, Loader.setDeadline_setDeadline]
      rfl
    obtain ⟨htime', hverdict, hsame⟩ := Sandbox.eq_of_forked hforked htime hvalid
    refine ⟨test, _, rfl, rfl, hverdict, htime', fun o ho => hsame o ho fun hfast => ?_⟩
    refine TestRun.run_ne_failFast _ _ _ o.output (ho.trans ?_)
    rw [← hfast]

/-- Workers, however many there are and however their steps come, record what single runs give. -/
theorem MayEnd.comesOfRun {progress : Progress} {workers : Nat} {points : List MutationPoint}
    {outcome : List MutationResult × Progress} (h : c.MayEnd progress workers points outcome)
    (hcopy : c.sandbox.DiscardsCopy) {r : MutationResult} (hr : r ∈ outcome.1) (hrun : r.HasRun) :
    r.point ∈ points ∧ c.ComesOfRun r := by
  obtain ⟨order, hperm, rfl⟩ := h.exists_order
  obtain ⟨slice, hslice, hr⟩ := List.mem_flatMap.mp hr
  obtain ⟨hmem, hcomes⟩ := execute_comesOfRun hcopy hr hrun
  refine ⟨?_, hcomes⟩
  rw [← flatten_slices workers points]
  exact List.mem_flatten.mpr ⟨slice, hperm.subset hslice, hmem⟩

end WorkerContext

/-! ### Edited units -/

/-- A loader holds a fresh image of units in which nothing but a point's edit was
made, where the point stands. -/
def LoadsEdited (config : LoaderConfig) (units : List ProgramUnit) (q : MutationPoint)
    (l₀ : Loader) :
    Prop :=
  ∃ (i : Nat) (u : ProgramUnit) (edited : Program), units[i]? = some u ∧ q.IsOf u ∧
    u.program.editAt? q = some edited ∧ Loads config (units.set i { u with program := edited }) l₀

namespace Engine

variable {e : Engine} {units prepared : List ProgramUnit} {tests : List Test}
  {baseline : List BaselineTest} {c : WorkerContext} {results : List MutationResult}
  {q : MutationPoint} {u : ProgramUnit} {i : Nat} {edited : Program}

/-- An edit registers nothing. -/
theorem registersNothing_of_set (hquiet : ∀ u ∈ units, u.program.RegistersNothing)
    (hi : units[i]? = some u) (hedit : u.program.editAt? q = some edited) :
    ∀ v ∈ units.set i { u with program := edited }, v.program.RegistersNothing := by
  intro v hv
  rcases List.mem_or_eq_of_mem_set hv with hv | rfl
  · exact hquiet v hv
  · intro x hx
    rcases Program.mem_instructions_of_editAt? hedit hx with hx | hnone
    · exact hquiet u (List.mem_of_getElem? hi) x hx
    · rw [hnone]
      exact ⟨nofun, nofun⟩

/-- An edit keeps the entries of tests. -/
theorem hasEntry_of_set {test : Test} (hentry : test.HasEntry (units.map (·.program)))
    (hi : units[i]? = some u) (hedit : u.program.editAt? q = some edited) :
    test.HasEntry ((units.set i { u with program := edited }).map (·.program)) := by
  refine hentry.transfer fun p hp f hf => ?_
  obtain ⟨v, hv, rfl⟩ := List.mem_map.mp hp
  obtain ⟨j, hj⟩ := List.mem_iff_getElem?.mp hv
  by_cases heq : i = j
  · subst heq
    obtain rfl := Option.some.inj (hi.symm.trans hj)
    have hself := List.getElem?_set_self (a := { u with program := edited })
      (List.getElem?_eq_some_iff.mp hi).1
    exact ⟨edited, List.mem_map.mpr ⟨_, List.mem_of_getElem? hself, rfl⟩,
      Program.exists_function_of_editAt? hedit hf⟩
  · have hother := (List.getElem?_set_ne (a := { u with program := edited }) heq).trans hj
    exact ⟨v.program, List.mem_map_of_mem (List.mem_of_getElem? hother), f, hf, rfl, rfl⟩

/-- Workers have the objects and the keys of units that are prepared for points of theirs,
under names that are not in use. -/
structure Mutates (points : List MutationPoint) (units : List ProgramUnit) (c : WorkerContext) :
    Prop where
  valid : ∀ u ∈ units, u.program.IsValid
  cells : ∀ u ∈ units, u.program.cells = []
  fresh : ∀ name, Program.generated points name → ∀ u ∈ units, ¬ u.program.Mentions name
  isOf : ∀ q ∈ points, ∃ u ∈ units, u.role = .source ∧ q.IsOf u
  prepares : ∃ prepared, prepareUnits points units = .ok (prepared, c.keys) ∧
    compileUnits prepared false = .ok c.objects

/-- The workers of a run have the units that are prepared for its points. -/
theorem GetsReady.mutates (h : e.GetsReady units tests baseline prepared c)
    (hfresh : ∀ name, Program.generated (findPoints e.operators units baseline) name →
      ∀ u ∈ units, ¬ u.program.Mentions name) :
    Mutates (findPoints e.operators units baseline) units c where
  valid := isValid_of_validateUnits h.acceptsUnits
  cells := fun _ => cells_eq_nil_of_baseline h.passes
  fresh := hfresh
  isOf := fun _ => exists_unit_of_mem_findPoints h.passes
  prepares := ⟨prepared, h.prepares, h.compiles⟩

namespace Mutates

variable {points : List MutationPoint} {config : LoaderConfig} {t : Trampolines} {l l' : Loader}
  (h : Mutates points units c) (hsetup : c.setup = .ok (t, l))

include h hsetup

/-- What the units are prepared to can be linked, so all functions have different names. -/
theorem exists_prepared : ∃ prepared, compileUnits prepared false = .ok c.objects ∧
    List.Forall₂ (IsPreparedFor points c.keys) units prepared ∧
    (∀ u ∈ prepared, u.program.IsValid) ∧
      ((prepared.map (·.program)).flatMap Program.names).Nodup := by
  obtain ⟨prepared, hprepares, hobjects⟩ := h.prepares
  obtain ⟨image, natives, -, hlinked⟩ := (WorkerContext.isSetUp_of_setup hsetup).image
  have hnames := hlinked.names_nodup
  rw [Image.names_of_represent (represent_of_compileUnits hobjects)] at hnames
  have hprepared := isPreparedFor_of_prepareUnits hprepares h.valid fun u hu q =>
    isOf_of_prepareUnits hprepares h.isOf hnames hu
  refine ⟨prepared, hobjects, hprepared, fun u' hu' => ?_, hnames⟩
  obtain ⟨u, -, hu⟩ := exists_left_of_mem hprepared hu'
  exact hu.valid'

variable (hpages : config.memoryPages = c.loader.memoryPages)

include hpages

/-- The given units can be loaded. -/
theorem exists_loads : ∃ l₀, Loads config units l₀ := by
  obtain ⟨prepared, hobjects, hprepared, hvalid, -⟩ := h.exists_prepared hsetup
  have hstart := WorkerContext.isSetUp_of_setup hsetup
  have hunits : RedirectsUnits t l (Program.generated points) units prepared :=
    forall₂_imp_of_mem hprepared fun u u' hu hself =>
      hself.redirects (h.cells u hu) (fun name hname => h.fresh name hname u hu) fun q hq =>
        ⟨q.key, rfl, hstart.boundTo q.key (hself.keys q hq)⟩
  obtain ⟨l₀, hloads, -⟩ := hstart.exists_loads hobjects hvalid hunits hpages
  exact ⟨l₀, hloads⟩

/-- While a point's mutant is bound, a worker's image stands for the given units with the
point's edit made where it stands. -/
theorem exists_standsFor (hq : q ∈ points) (hbind : WorkerContext.bindMutant t l q = .ok l') :
    ∃ (i : Nat) (u : ProgramUnit) (edited : Program) (l₀ : Loader), units[i]? = some u ∧ q.IsOf u ∧
      u.program.editAt? q = some edited ∧ edited.IsValid ∧
      Loads config (units.set i { u with program := edited }) l₀ ∧
      l₀.StandsFor l' (units.set i { u with program := edited }) := by
  obtain ⟨prepared, hobjects, hprepared, hvalid, hnames⟩ := h.exists_prepared hsetup
  have hbound := WorkerContext.isSetUp_of_bindMutant (WorkerContext.isSetUp_of_setup hsetup) hbind
  obtain ⟨u, hu, hrole, hof⟩ := h.isOf q hq
  obtain ⟨i, hi⟩ := List.mem_iff_getElem?.mp hu
  have hmutated : q ∈ mutated points u := mem_mutated.mpr ⟨hrole, hq, hof.exists_function.1⟩
  obtain ⟨u', hu', hself⟩ := exists_right_of_mem hprepared hu
  -- one cell holds a mutant, and all others hold what they were set up to
  have hmutant : t.Holds l' (SymbolName.cell q.key) q.identifier := by
    have hcell := hbound.boundTo q.key (hself.keys q hmutated)
    rw [if_pos rfl] at hcell
    exact ⟨q.key, rfl, hcell⟩
  have hpreserved : ∀ key ∈ c.keys, key ≠ q.key →
      t.Holds l' (SymbolName.cell key) (SymbolName.preserved key) := by
    intro key hkey hne
    have hcell := hbound.boundTo key hkey
    rw [if_neg hne] at hcell
    exact ⟨key, rfl, hcell⟩
  obtain ⟨edited, hedit, hunits⟩ := redirects_edit_of_prepared hprepared h.fresh h.cells hnames hi
    hmutated hmutant hpreserved
  have hedited : { u with program := edited } ∈ units.set i { u with program := edited } :=
    List.mem_of_getElem? (List.getElem?_set_self (List.getElem?_eq_some_iff.mp hi).1)
  obtain ⟨v', hv', hr⟩ := exists_right_of_mem hunits hedited
  obtain ⟨l₀, hloads, hstands⟩ := hbound.exists_loads hobjects hvalid hunits hpages
  exact ⟨i, u, edited, l₀, hi, hof, hedit, hr.isValid (hvalid v' hv'), hloads, hstands⟩

end Mutates

/-- A run that gave a result while a point's mutant was bound ends alike in the units that are
edited at the point, unless it used up the stack. -/
theorem GetsReady.endsWith (h : e.GetsReady units tests baseline prepared c)
    (hfork : e.config.sandbox = .fork) (hquiet : ∀ u ∈ units, u.program.RegistersNothing)
    (hfresh : ∀ name, Program.generated (findPoints e.operators units baseline) name →
      ∀ u ∈ units, ¬ u.program.Mentions name) {r : MutationResult}
    (hq : r.point ∈ findPoints e.operators units baseline) (hcomes : c.ComesOfRun r)
    (hrun : r.HasRun) (htime : r.execution.status ≠ .timeout) : ∃ test ∈ tests, test.name = r.test ∧
      ((r.execution.status = .crashed → ¬ c.Overflows r.point r.test) →
        ∃ l₀, LoadsEdited e.loader units r.point l₀ ∧
          TestRun.EndsWith l₀ test ⟨r.execution.status, r.execution.output⟩) := by
  obtain ⟨t, l, l', hsetup, hbind, hexecution⟩ := hcomes
  have hsandbox : c.sandbox = .fork := by
    rw [h.sandbox_eq, hfork]
    rfl
  obtain ⟨test, result, htest, hresult, hverdict, htime', hsame⟩ :=
    WorkerContext.exists_run_of_runTest hsandbox hexecution hrun.2 htime
  -- the test is one of the given ones, with the time that it took
  obtain ⟨hmem, hname⟩ := WorkerContext.mem_tests_of_test? htest
  rw [h.tests_eq] at hmem
  obtain ⟨b, hb, rfl⟩ := List.mem_map.mp hmem
  obtain ⟨given, hgiven, htimed⟩ := exists_given_of_baseline h.passes b hb
  refine ⟨given, hgiven, ?_, fun hcrash => ?_⟩
  · rw [← hname, htimed]
  have hpages : e.loader.memoryPages = c.loader.memoryPages := by rw [h.loader_eq]
  obtain ⟨i, u, edited, l₀, hi, hof, hedit, -, hloads, hstands⟩ :=
    (h.mutates hfresh).exists_standsFor hsetup hpages hq hbind
  have hbound := WorkerContext.isSetUp_of_bindMutant (WorkerContext.isSetUp_of_setup hsetup) hbind
  obtain ⟨image, natives, himage, -⟩ := hbound.image
  -- a run for which the stack is too small would have been recorded as a crash
  have hstack : ¬ TestRun.Overflows TestRun.defaultProgramName
      (l'.setDeadline (some (c.config.testTimeout b.test.baselineTime))) b.test := by
    intro hover
    obtain ⟨output, hcrashed⟩ :=
      TestRun.run_of_overflows ((l'.image_setDeadline _).trans himage) hover
    have hrecorded := hsame _ (hresult.symm.trans hcrashed)
    exact hcrash (congrArg Outcome.status hrecorded).symm
      ⟨t, l, l', b.test, hsetup, hbind, htest, hover⟩
  obtain ⟨n, hsteps⟩ := l'.exists_withSteps (some (c.config.testTimeout b.test.baselineTime))
  rw [hsteps] at hstack hresult
  have hdepth : l'.config.maxDepth = e.loader.maxDepth := by rw [hbound.config_eq, h.loader_eq]
  obtain ⟨o, ho, hends⟩ := hstands.endsWith hloads (registersNothing_of_set hquiet hi hedit) hdepth
    hbound.host (hasEntry_of_set (hasEntry_of_baseline h.passes b hb) hi hedit) hstack
      hresult htime'
    hverdict
  refine ⟨l₀, ⟨i, u, edited, hi, hof, hedit, hloads⟩, ?_⟩
  rw [hsame o ho, htimed] at hends
  exact hends

/-- Every record of a test that was run tells the truth about its mutant: its status and its
output are those of the test in a fresh image of the given units in which the point's edit was
made where the point stands, and nothing else.  This is so for any number of workers and whatever
tests are saved, as long as tests run in copies of the process, the names that preparation adds
are not in use, no unit has functions registered to be run at the end, and the run was not over in
time or crashed for want of stack. -/
theorem MayRun.truthful (h : e.MayRun units tests baseline prepared c results)
    (hfork : e.config.sandbox = .fork) (hquiet : ∀ u ∈ units, u.program.RegistersNothing)
    (hfresh : ∀ name, Program.generated (findPoints e.operators units baseline) name →
      ∀ u ∈ units, ¬ u.program.Mentions name) :
    ∀ r ∈ (Report.of results).records, r.status ≠ .failFast → r.status ≠ .invalid →
      r.status ≠ .timeout →
        ∃ q ∈ findPoints e.operators units baseline, ∃ test ∈ tests,
          q.identifier = r.mutationPoint ∧ test.name = r.test ∧
            ((r.status = .crashed → ¬ c.Overflows q r.test) →
              ∃ l₀, LoadsEdited e.loader units q l₀ ∧
                TestRun.EndsWith l₀ test ⟨r.status, r.output⟩) := by
  obtain ⟨hready, workers, progress, -, hend⟩ := h
  intro r hr hfast hvalid htime
  have hmem := (Report.records_perm results).mem_iff.mp hr
  obtain ⟨result, hresult, rfl⟩ := List.mem_map.mp hmem
  have hcopy : c.sandbox.DiscardsCopy := by
    rw [hready.sandbox_eq, hfork]
    exact Sandbox.discardsCopy_fork
  obtain ⟨hq, hcomes⟩ := hend.comesOfRun hcopy hresult ⟨hfast, hvalid⟩
  obtain ⟨test, htest, hname, hends⟩ :=
    hready.endsWith hfork hquiet hfresh hq hcomes ⟨hfast, hvalid⟩ htime
  exact ⟨result.point, hq, test, htest, rfl, hname, hends⟩

end Engine

/-- The mutant that the test kills is killed in units that are edited in place, too. -/
theorem doubling_truthful : ∃ baseline prepared c,
    doublingEngine.MayRun doublingUnits doublingTests baseline prepared c doublingResults ∧
    ∃ r ∈ (Report.of doublingResults).records, r.status = .failed ∧
      ∃ q l₀, q.identifier = r.mutationPoint ∧
        LoadsEdited doublingEngine.loader doublingUnits q l₀ ∧
        ∃ test ∈ doublingTests, TestRun.EndsWith l₀ test ⟨.failed, r.output⟩ := by
  have hfailed : ∃ r ∈ doublingResults, r.execution.status = .failed := by decide +kernel
  have hquiet : ∀ u ∈ doublingUnits, u.program.RegistersNothing := by
    unfold Program.RegistersNothing
    decide +kernel
  have hpoints : (doublingEngine.baseline doublingUnits doublingTests).toOption.all (fun baseline =>
      decide (∀ q ∈ Engine.findPoints doublingEngine.operators doublingUnits baseline,
        ∀ name ∈ [SymbolName.cell q.key, SymbolName.preserved q.key, q.identifier],
          ∀ u ∈ doublingUnits, ¬ u.program.Mentions name)) = true := by
    decide +kernel
  obtain ⟨baseline, prepared, c, hmay⟩ := Engine.mayRun_of_run doubling_run
  rw [hmay.1.passes] at hpoints
  obtain ⟨result, hresult, hstatus⟩ := hfailed
  have hr : ResultRecord.of result ∈ (Report.of doublingResults).records :=
    (Report.records_perm doublingResults).mem_iff.mpr (List.mem_map_of_mem hresult)
  have hrecord : (ResultRecord.of result).status = .failed := hstatus
  obtain ⟨q, -, test, htest, hid, -, hends⟩ := Engine.MayRun.truthful hmay rfl hquiet
    (fun name ⟨q, hq, hname⟩ => of_decide_eq_true hpoints q hq name (by simpa using hname))
    _ hr (by simp [hrecord]) (by simp [hrecord]) (by simp [hrecord])
  rw [hrecord] at hends
  obtain ⟨l₀, hloads, hends⟩ := hends nofun
  exact ⟨baseline, prepared, c, hmay, _, hr, hrecord, q, l₀, hid, hloads, test, htest, hends⟩

end MutationAnalysis
