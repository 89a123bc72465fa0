/-
Functions that are first entered from outside.

A run of a test calls constructors, the entry and what is to run at the end, and between these calls
the recorder keeps its stack.  As long as all of them return, the stack is empty in between, so a
function that such a call enters for the first time is recorded as its own caller, and is one level
below the root.  A call that is ended by exit leaves functions on the stack that are never left.
What is to run at the end is recorded under the innermost of these, and is one level below it.

* `Engine.Instruments.recorder_of_goesOn`: what a call leaves in the
  recorder after which the run goes on;
* `Engine.Instruments.getD_of_entered`: what the function of a call is recorded under;
* `Engine.level_of_entered`: its level in the tree of the trace.
-/
import MutationAnalysis.Proofs.Campaign.Pruning
import MutationAnalysis.Proofs.Image.Recording
import MutationAnalysis.Proofs.TestRun.Calls

namespace MutationAnalysis

open Wasm Lowering Interpreter Recorder TestRun

namespace Engine

variable {config : LoaderConfig} {units : List ProgramUnit} {plain objects : List Object}
  {image : Image} {l₀ l l' : Loader} {c : Invocation} {home index k : Nat} {u : ProgramUnit}
  {f : Function}

namespace Instruments

variable (h : Instruments config units plain objects image l₀ l)

include h

/-- The calls of a run are runs of the instrumented image. -/
theorem exists_run (hc : l.MayBecome c.loader) : ∃ memory steps,
    let run := ((image.withProbes (Numbering.of objects).offsetWord objects).linkage #[]
      config.maxDepth).call steps c.ref c.arguments memory c.loader.host
    c.ending = run.ending ∧ c.after.host = run.state := by
  obtain ⟨l₁, ref, arguments⟩ := c
  obtain ⟨_, memory, state, steps, -, -, rfl⟩ := hc
  refine ⟨memory, steps, ?_⟩
  dsimp only
  rw [Invocation.ending, Invocation.after, Loader.call_inState h.image_eq, h.cells_eq, h.config_eq]
  exact ⟨rfl, rfl⟩

/-- A call keeps what entries there are. -/
theorem extends_after (hc : l.MayBecome c.loader) :
    c.loader.host.recorder.Extends c.after.host.recorder := by
  obtain ⟨memory, steps, -, hafter⟩ := h.exists_run hc
  have hkeeps : ((image.withProbes (Numbering.of objects).offsetWord objects).linkage #[]
      config.maxDepth).Keeps (fun _ s => c.loader.host.recorder.Extends s.recorder) fun _ => True :=
    ⟨fun n _ arguments memory _ hs => n.keeps_extends arguments memory hs, fun _ _ _ _ hs => hs⟩
  rw [hafter]
  exact (Linkage.keeps_call hkeeps (.refl _)
    (fun n _ => n.keeps_extends c.arguments memory (.refl _)) steps).1

/-- What has a name, and what constructors are, are functions of the programs. -/
theorem exists_defined {a : Nat} (ha : a ∈ l.constructors ∨ ∃ name, l.address? name = some a) :
    ∃ home index, l.function? a = some (.defined home index) := by
  obtain ⟨natives, hlinked⟩ := h.uninstrumented.isLinked
  have hname : ∃ name, image.address? name = some a := by
    rcases ha with ha | ⟨name, ha⟩
    · rw [h.constructors_eq, Loader.constructors_of_image h.uninstrumented.image_eq] at ha
      obtain ⟨_, -, hlinks⟩ := hlinked.links
      obtain ⟨name, -, hname⟩ := exists_left_of_mem hlinks.constructors ha
      exact ⟨name, hname⟩
    · rw [h.address?_eq, h.uninstrumented.address?_eq] at ha
      exact ⟨name, ha⟩
  obtain ⟨name, hname⟩ := hname
  obtain ⟨home, index, _, _, -, -, -, href⟩ :=
    hlinked.exists_function_of_address? (Image.represent_of_areOf h.uninstrumented.areOf) hname
  refine ⟨home, index, ?_⟩
  rw [h.function?_eq, h.uninstrumented.function?_eq, href]

/-- The number that the probes of a function are told. -/
theorem number_eq (hu : units[home]? = some u) (index : Nat) :
    (image.probedEnvironment (units.map (·.program)) plain (Numbering.of objects).offsetWord #[]
      config.maxDepth).number home index
      = (Numbering.of objects).recordedAs u.identifier index := by
  obtain ⟨o, ho, hcompile⟩ := exists_right_of_getElem? (mapM_eq_ok.mp h.uninstrumented.compiles) hu
  rw [Environment.number, Image.probes_probedEnvironment ho, Object.moduleId_of_compile hcompile]
  rfl

variable (hvalid : ∀ u ∈ units, u.program.IsValid)
  (hidentifiers : AreIdentified units)
  (hsize : (Numbering.of objects).mappingSize ≤ UInt32.size)

include hidentifiers hsize

/-- Numbers of functions are in range. -/
theorem inRange_of_numbered {events : List Event} (hnumbered : Numbered (image.probedEnvironment
      (units.map (·.program)) plain (Numbering.of objects).offsetWord #[] config.maxDepth)
      (image.probedEnvironment (units.map (·.program)) plain (Numbering.of objects).offsetWord #[]
        config.maxDepth).number events) : InRange (Numbering.of objects).mappingSize events := by
  intro k hk
  obtain ⟨home, index, f, hf, rfl⟩ := hnumbered k hk
  obtain ⟨p, hp, hfunction⟩ := function?_eq_some.mp hf
  replace hp : (units.map (·.program))[home]? = some p := hp
  rw [List.getElem?_map, Option.map_eq_some_iff] at hp
  obtain ⟨u, hu, rfl⟩ := hp
  rw [h.number_eq hu]
  obtain ⟨hne, hlt⟩ := Numbering.lt_mappingSize (function?_of_compileUnits h.compiles
    h.uninstrumented.names_nodup hidentifiers hsize hu hfunction)
  exact ⟨Nat.one_le_iff_ne_zero.mpr hne, hlt⟩

include hvalid

/-- After a call that lets the run go on, callers lead outside if they did before.  The call leaves
the stack as it was if it returned, and else not empty. -/
theorem recorder_of_goesOn (hc : l.MayBecome c.loader) (href : ∃ a, l.function? a = some c.ref)
    (hgoes : c.GoesOn l)
    (hrooted : c.loader.host.recorder.IsRooted (Numbering.of objects).mappingSize) :
    c.after.host.recorder.IsRooted (Numbering.of objects).mappingSize ∧
      (c.Returns → c.after.host.recorder.stack = c.loader.host.recorder.stack) ∧
      (¬ c.Returns → c.Exits ∧ c.after.host.recorder.stack ≠ []) := by
  obtain ⟨memory, steps, hending, hafter⟩ := h.exists_run hc
  have hhost : ∀ n, c.ref = .host n → n.IsNoProbe := fun n hn => by
    obtain ⟨a, ha⟩ := href
    rw [h.function?_eq] at ha
    obtain ⟨k, hk⟩ := h.exists_entry ha n hn
    exact h.hasNativeProbes.table k n hk
  have htime : c.ending ≠ .trapped .interrupt := by
    rcases hgoes with ⟨results, heq⟩ | ⟨⟨code, heq⟩, -⟩ <;> rw [heq] <;> exact Ending.noConfusion
  have hfinishes := Linkage.finishes_of_call rfl (hending ▸ htime)
  obtain ⟨events, hrecorder, hnumbered, hreturned, hraised⟩ :=
    (h.agrees hvalid).recorder_of_finishes h.hasNativeProbes hhost hfinishes
  rw [← hending] at hreturned hraised
  rw [hafter, hrecorder]
  refine ⟨hrooted.foldl_record (h.inRange_of_numbered hidentifiers hsize hnumbered), ?_, ?_⟩
  · rintro ⟨results, heq⟩
    exact (hreturned results heq).stack_eq _
  · intro hnot
    obtain ⟨⟨code, heq⟩, a, ha, hfound⟩ := hgoes.resolve_left hnot
    obtain ⟨ks, hpending, hnone⟩ := hraised _ heq
    refine ⟨⟨code, heq⟩, fun hempty => ?_⟩
    rw [hpending.stack_eq] at hempty
    -- what a signal ended was a function of the programs, which is still under way
    obtain ⟨n, hn⟩ := hnone (List.append_eq_nil_iff.mp hempty).1
    obtain ⟨home, index, hdefined⟩ := h.exists_defined ha
    rw [hfound, hn] at hdefined
    cases hdefined

/-- After calls that let the run go on, callers lead outside if they did before. -/
theorem isRooted_of_follow {r r' : Recorder} {cs : List Invocation} (hfollow : Follow l r cs r')
    (hgoes : ∀ c ∈ cs, c.GoesOn l) (hrooted : r.IsRooted (Numbering.of objects).mappingSize) :
    r'.IsRooted (Numbering.of objects).mappingSize :=
  hfollow.keeps (fun c hmem hc href hkept =>
    (h.recorder_of_goesOn hvalid hidentifiers hsize hc href (hgoes c hmem) hkept).1) hrooted

/-- After calls that returned, the stack is what it was. -/
theorem stack_of_returns {r r' : Recorder} {cs : List Invocation} (hfollow : Follow l r cs r')
    (hreturns : ∀ c ∈ cs, c.Returns) (hrooted : r.IsRooted (Numbering.of objects).mappingSize) :
    r'.stack = r.stack := by
  refine (hfollow.keeps (P := fun r' => r'.IsRooted (Numbering.of objects).mappingSize ∧
    r'.stack = r.stack) (fun c hmem hc href hkept => ?_) ⟨hrooted, rfl⟩).2
  obtain ⟨hrooted', hstack, -⟩ := h.recorder_of_goesOn hvalid hidentifiers hsize hc href
    (.inl (hreturns c hmem)) hkept.1
  exact ⟨hrooted', (hstack (hreturns c hmem)).trans hkept.2⟩

/-- A function that a call enters for the first time is recorded under the one that the recorder
has under way before the call. -/
theorem getD_of_entered (hc : l.MayBecome c.loader)
    (hslots : c.loader.host.recorder.HasSlots (Numbering.of objects).mappingSize)
    (hu : units[home]? = some u) (hf : u.program.functions[index]? = some f)
    (href : c.ref = .defined home index)
    (hk : (Numbering.of objects).recordedAs u.identifier index = k)
    (hnew : ¬ c.loader.host.recorder.HasEntry k) (hentered : c.after.host.recorder.HasEntry k) :
    c.after.host.recorder.mapping.getD k 0 = c.loader.host.recorder.stack.headD k := by
  obtain ⟨memory, steps, -, hafter⟩ := h.exists_run hc
  obtain ⟨hne, hlt⟩ := Numbering.lt_mappingSize (function?_of_compileUnits h.compiles
    h.uninstrumented.names_nodup hidentifiers hsize hu hf)
  rw [hk] at hne hlt
  have hfunction : (image.probedEnvironment (units.map (·.program)) plain
      (Numbering.of objects).offsetWord #[] config.maxDepth).function? home index = some f := by
    refine function?_eq_some.mpr ⟨u.program, ?_, hf⟩
    show (units.map (·.program))[home]? = _
    rw [List.getElem?_map, hu, Option.map_some]
  have hor := (h.agrees hvalid).extends_enter h.hasNativeProbes hfunction steps c.arguments memory
    c.loader.host
  rw [h.number_eq hu, hk, ← href, ← hafter] at hor
  exact hslots.getD_of_extends_enter hne hlt hnew hentered hor

end Instruments

/-- A function that a traced run enters for the first time because the run itself calls it, as a
constructor, as the entry, or to end the program, is recorded as its own caller and is at level one
of the call tree, if all calls before returned.  Else the last of these that did not return was
ended by exit: it left functions under way, and the function is recorded under the innermost of
them, which is another one, and is one level below it, where levels do not begin again at zero.
This is so for every test and whatever state the instrumented image is in.  The units are valid,
call nothing of the engine's, have identifiers that tell their programs apart, and have no more
functions than there are words to number them. -/
theorem level_of_entered (hvalid : ∀ u ∈ units, u.program.validate = .ok ())
    (hcalls : ∀ u ∈ units, u.program.CallsNothingInternal)
    (hidentifiers : AreIdentified units)
    (hobjects : compileUnits units true = .ok objects)
    (hsize : (Numbering.of objects).mappingSize ≤ UInt32.size)
    (hload : (Loader.new config).load objects (Resolver.withProbes (.of objects)) = (l, .ok ()))
    {l₁ l₂ start : Loader} (hstate : l.MayBecome l₁)
    (hstart : l₁.mapHost (·.beginTrace (Numbering.of objects).mappingSize) = start)
    {programName : String} {test : Test} {trace : Trace}
    (htrace : Trace.run (.of objects) programName l₁ test = .ok (trace, l₂))
    {earlier later : List Invocation}
    (hruns : TestRun.calls programName start test = earlier ++ c :: later)
    (hu : units[home]? = some u) (hf : u.program.functions[index]? = some f)
    (href : c.ref = .defined home index)
    (hk : (Numbering.of objects).recordedAs u.identifier index = k)
    (hnew : ¬ c.loader.host.recorder.HasEntry k) (hentered : c.after.host.recorder.HasEntry k)
    {mapping : Array Nat}
    (hmapping : (TestRun.run programName start test).2.host.recorder.mapping = mapping) :
    ((∀ d ∈ earlier, d.Returns) ∧ mapping.getD k 0 = k ∧ trace.callTree.level? k = some 1) ∨
      ∃ before d between j n, earlier = before ++ d :: between ∧ d.Exits ∧
        (∀ e ∈ between, e.Returns) ∧
        d.after.host.recorder.stack.head? = some j ∧ j ≠ k ∧ mapping.getD k 0 = j ∧
        trace.callTree.level? j = some n ∧ trace.callTree.level? k = some (n + 1) ∧ n < n + 1 := by
  have hunits : ∀ u ∈ units, u.program.IsValid := fun u hu =>
    Program.isValid_of_validate (hvalid u hu)
  obtain ⟨plain, image, l₀, h⟩ := exists_instruments_of_load hunits hcalls hobjects hload
  have hne := (Numbering.lt_mappingSize (function?_of_compileUnits h.compiles
    h.uninstrumented.names_nodup hidentifiers hsize hu hf)).1
  rw [hk] at hne
  -- the calls before, this one, and those after it
  have hfollow : Follow l start.host.resetRun.recorder _ _ :=
    follow_calls (hstart ▸ hstate.mapHost _) programName test
  have hbegin : start.host.resetRun.recorder = .start (Numbering.of objects).mappingSize := by
    rw [← hstart]
    rfl
  rw [hruns, hbegin] at hfollow
  obtain ⟨_, hbefore, hrest, hgoes⟩ := hfollow.split
  replace hgoes := hgoes (List.cons_ne_nil _ _)
  obtain ⟨rfl, hloader, -, -, hafter⟩ := hrest.of_cons
  have hrooted := h.isRooted_of_follow hunits hidentifiers hsize hbefore hgoes (.start _)
  have hextends : c.after.host.recorder.Extends
      (TestRun.run programName start test).2.host.recorder :=
    hafter.keeps (fun d _ hloader _ hr => hr.trans (h.extends_after hloader)) (.refl _)
  have hrecorded := (hextends.getD_eq k hentered).trans
    (h.getD_of_entered hunits hidentifiers hsize hloader hrooted.toHasSlots hu hf href hk
      hnew hentered)
  have htree : trace.callTree.IsTreeOf mapping := by
    rw [callTree_of_traceRun htrace, hstart, hmapping]
    exact CallTree.isTreeOf_grow mapping
  have hslots := ((h.extends_after hloader).trans hextends).size_eq.trans hrooted.size_eq
  rw [hmapping] at hrecorded hslots
  rcases returns_or_last earlier with hall | ⟨before, d, between, rfl, hd, hbetween⟩
  · rw [h.stack_of_returns hunits hidentifiers hsize hbefore hall (.start _)] at hrecorded
    exact .inl ⟨hall, hrecorded, htree.level?_eq (.outside hne hrecorded)⟩
  · -- the function is recorded under the innermost that the last exit left on the stack
    obtain ⟨_, hbefore', hrest', -⟩ := hbefore.split
    obtain ⟨rfl, hloader', href', -, hbetween'⟩ := hrest'.of_cons
    have hrooted' := h.isRooted_of_follow hunits hidentifiers hsize hbefore'
      (fun e he => hgoes e (List.mem_append_left _ he)) (.start _)
    obtain ⟨hleft, -, hexit⟩ := h.recorder_of_goesOn hunits hidentifiers hsize hloader' href'
      (hgoes d (List.mem_append_right _ List.mem_cons_self)) hrooted'
    obtain ⟨hexits, hnonempty⟩ := hexit hd
    have hstack := h.stack_of_returns hunits hidentifiers hsize hbetween' hbetween hleft
    obtain ⟨j, ks, hcons⟩ := List.exists_cons_of_ne_nil hnonempty
    rw [hcons] at hstack
    rw [hstack] at hrecorded
    have hj : c.loader.host.recorder.HasEntry j := hrooted.underWay j (by simp [hstack])
    have hjk : j ≠ k := fun heq => hnew (heq ▸ hj)
    obtain ⟨n, hn⟩ := hrooted.fromOutside j hj
    have hn' := ((h.extends_after hloader).trans hextends).fromOutside hn
    rw [hmapping] at hn'
    have hk' : CallTree.FromOutside mapping k (n + 1) := .inside hne hrecorded hjk hn'
    exact .inr ⟨before, d, between, j, .ofNat n, rfl, hexits, hbetween,
      by rw [hcons, List.head?_cons], hjk, hrecorded, htree.level?_eq hn',
      (htree.level?_eq hk').trans (congrArg some (UInt32.ofNat_add n 1)),
      htree.lt_succ_of_fromOutside (hslots.trans_le hsize) hk'⟩

end Engine

/-! ### A run that exits -/

/-- A program that has a function run at the end, and exits. -/
def exiting : Program where
  functions := [{
    name := "cleanup", numParams := 0, numLocals := 0, returnType := .void
    blocks := [⟨[⟨.ret, none, [], none⟩]⟩] }, {
    name := "main", numParams := 0, numLocals := 1, returnType := .void
    blocks := [⟨[⟨.call, some 0, [.symbol "atexit", .immediate (.int 1)], none⟩,
      ⟨.call, none, [.symbol "exit", .immediate (.int 0)], none⟩,
      ⟨.ret, none, [], none⟩]⟩] }]
  declarations := [⟨"atexit", 1, .int⟩, ⟨"exit", 1, .void⟩]
  constructors := []
  version := 1

def exitingUnits : List ProgramUnit := [⟨exiting, .test, "exit.json", "m"⟩]

def exitingTest : Test := .new "exits" "main" []

/-- Its run calls the entry, which exits, and then what is to run at the end,
which was not entered before. -/
theorem exiting_calls : ∃ objects l start trace l₂ c₁ c₂,
    Engine.compileUnits exitingUnits true = .ok objects ∧ (Numbering.of objects).mappingSize = 3 ∧
    (Numbering.of objects).recordedAs "m" 0 = 1 ∧
    (Loader.new ⟨1, 8⟩).load objects (Resolver.withProbes (.of objects)) = (l, .ok ()) ∧
    l.mapHost (·.beginTrace 3) = start ∧
    Trace.run (.of objects) TestRun.defaultProgramName l exitingTest = .ok (trace, l₂) ∧
    TestRun.calls TestRun.defaultProgramName start exitingTest = [c₁, c₂] ∧
    c₁.ending = .raised (.exit 0) ∧ c₂.ref = .defined 0 0 ∧
    ¬ c₂.loader.host.recorder.HasEntry 1 ∧ c₂.after.host.recorder.HasEntry 1 ∧
    (TestRun.run TestRun.defaultProgramName start exitingTest).2.host.recorder.mapping
      = #[0, 2, 2] ∧
    trace.callTree.level? 1 = some 2 := by
  have hruns : (Engine.compileUnits exitingUnits true).toOption.any (fun objects =>
      decide ((Numbering.of objects).mappingSize = 3) &&
      (decide ((Numbering.of objects).recordedAs "m" 0 = 1) &&
      (((Loader.new ⟨1, 8⟩).load objects (Resolver.withProbes (.of objects))).2.isOk &&
      (decide ((TestRun.calls TestRun.defaultProgramName (((Loader.new ⟨1, 8⟩).load objects
          (Resolver.withProbes (.of objects))).1.mapHost (·.beginTrace 3)) exitingTest).map
          (fun c =>
            (c.ending, c.ref, c.loader.host.recorder.mapping.getD 1 0,
              c.after.host.recorder.mapping.getD 1 0))
        = [(.raised (.exit 0), .defined 0 1, 0, 0), (.returned [], .defined 0 0, 0, 2)]) &&
      (decide ((TestRun.run TestRun.defaultProgramName (((Loader.new ⟨1, 8⟩).load objects
          (Resolver.withProbes (.of objects))).1.mapHost (·.beginTrace 3))
        exitingTest).2.host.recorder.mapping = #[0, 2, 2]) &&
      (Trace.run (.of objects) TestRun.defaultProgramName ((Loader.new ⟨1, 8⟩).load objects
        (Resolver.withProbes (.of objects))).1 exitingTest).toOption.any
          fun r => decide (r.1.callTree.level? 1 = some 2)))))) = true := by
    decide +kernel
  obtain ⟨objects, hobjects, hruns⟩ := exists_of_any hruns
  simp only [Bool.and_eq_true, decide_eq_true_eq] at hruns
  obtain ⟨hsize, hnumber, hloads, hcalls, hmapping, htraced⟩ := hruns
  generalize hload : (Loader.new ⟨1, 8⟩).load objects (Resolver.withProbes (.of objects)) = loaded
    at hloads hcalls hmapping htraced
  obtain ⟨l, result⟩ := loaded
  obtain rfl : result = .ok () := eq_ok_of_isOk hloads ()
  obtain ⟨⟨trace, l₂⟩, htrace, hlevel⟩ := exists_of_any htraced
  -- the two calls, the second of which fills the slot that the first left empty
  obtain ⟨c₁, rest, hcalls, hfirst, hrest⟩ := List.map_eq_cons_iff.mp hcalls
  obtain ⟨c₂, rest, rfl, hsecond, hnil⟩ := List.map_eq_cons_iff.mp hrest
  obtain rfl := List.map_eq_nil_iff.mp hnil
  simp only [Prod.mk.injEq] at hfirst hsecond
  obtain ⟨hending, -⟩ := hfirst
  obtain ⟨-, href, hbefore, hafter⟩ := hsecond
  exact ⟨objects, l, _, trace, l₂, c₁, c₂, hobjects, hsize, hnumber, hload, rfl, htrace,
    hcalls, hending,
    href, not_not.mpr hbefore, by rw [HasEntry, hafter]; decide, hmapping, of_decide_eq_true hlevel⟩

/-- What runs at the end is recorded under another function, which is left by the exit, and
it is one level below that. -/
theorem exiting_level : ∃ objects l trace l₂ j n,
    (Loader.new ⟨1, 8⟩).load objects (Resolver.withProbes (.of objects)) = (l, .ok ()) ∧
    Trace.run (.of objects) TestRun.defaultProgramName l exitingTest = .ok (trace, l₂) ∧
    (Numbering.of objects).recordedAs "m" 0 = 1 ∧ j ≠ 1 ∧
    trace.callTree.level? j = some n ∧ trace.callTree.level? 1 = some (n + 1) ∧ n < n + 1 := by
  obtain ⟨objects, l, start, trace, l₂, c₁, c₂, hobjects, hsize, hnumber, hload, hstart,
    htrace, hruns, hending, href, hnew, hentered, -, -⟩ := exiting_calls
  have hvalid : ∀ u ∈ exitingUnits, u.program.validate = .ok () := by decide +kernel
  have hcalls : ∀ u ∈ exitingUnits, u.program.CallsNothingInternal := by decide +kernel
  have hidentifiers : Engine.AreIdentified exitingUnits := by decide +kernel
  obtain ⟨image, -, hl⟩ := (Loader.load_eq_ok rfl).mp hload
  rw [← hsize] at hstart
  replace hruns : TestRun.calls _ start exitingTest = [c₁] ++ c₂ :: [] := hruns
  have hlevel := Engine.level_of_entered (u := ⟨exiting, .test, "exit.json", "m"⟩) hvalid hcalls
    hidentifiers hobjects (by rw [hsize]; decide) hload (l.mayBecome_self (by rw [hl]))
      hstart htrace hruns
    rfl rfl href hnumber hnew hentered rfl
  -- the call before did not return
  rcases hlevel with ⟨hall, -⟩ | ⟨_, _, _, j, n, -, -, -, -, hne, -, hj, hk⟩
  · obtain ⟨results, hreturned⟩ := hall c₁ List.mem_cons_self
    rw [hending] at hreturned
    cases hreturned
  · exact ⟨objects, l, trace, l₂, j, n, hload, htrace, hnumber, hne, hj, hk⟩

/-- What runs at the end is first entered from outside, and yet it is not recorded as its own
caller and not at level one. -/
theorem exiting_not_outside : ∃ objects l start trace l₂ c₁ c₂,
    (Loader.new ⟨1, 8⟩).load objects (Resolver.withProbes (.of objects)) = (l, .ok ()) ∧
    l.mapHost (·.beginTrace (Numbering.of objects).mappingSize) = start ∧
    Trace.run (.of objects) TestRun.defaultProgramName l exitingTest = .ok (trace, l₂) ∧
    TestRun.calls TestRun.defaultProgramName start exitingTest = [c₁, c₂] ∧
    c₂.ref = .defined 0 0 ∧ (Numbering.of objects).recordedAs "m" 0 = 1 ∧
    ¬ c₂.loader.host.recorder.HasEntry 1 ∧ c₂.after.host.recorder.HasEntry 1 ∧
    (TestRun.run TestRun.defaultProgramName start exitingTest).2.host.recorder.mapping.getD
      1 0 ≠ 1 ∧
    trace.callTree.level? 1 ≠ some 1 := by
  obtain ⟨objects, l, start, trace, l₂, c₁, c₂, -, hsize, hnumber, hload, hstart, htrace,
    hruns, -, href, hnew, hentered, hmapping, hlevel⟩ := exiting_calls
  exact ⟨objects, l, start, trace, l₂, c₁, c₂, hload, by rw [hsize]; exact hstart,
    htrace, hruns, href, hnumber, hnew, hentered, by rw [hmapping]; decide, by rw [hlevel]; decide⟩

end MutationAnalysis
