/-
What the tests of a baseline share.

All tests of a baseline run in one image.  What a test leaves with the host, and the steps
that it takes, are put back before the next one starts; what it writes to memory stays.  So
the memory is all that one test hands on to another: each is judged as if it were alone in an
image with the memory that the tests before it left, and tests that leave the memory as it was
loaded are judged each on its own.

* `Engine.judgeAll`: tests one after the other, with nothing but the memory in common;
* `Engine.baseline_eq_judgeAll`: a baseline is no more than that;
* `Engine.baseline_separate`: tests that leave no trace in memory do not depend on
  each other, nor on their order.
-/
import MutationAnalysis.Proofs.Campaign.Loaded
import MutationAnalysis.Proofs.Campaign.Coverage
import MutationAnalysis.Proofs.TestRun.Runner

namespace MutationAnalysis

open Wasm

namespace Engine

variable {e : Engine} {units : List ProgramUnit} {numbering : Numbering} {l : Loader}
  {image : Image}

/-- What a test adds to a baseline if the image has the given memory when it starts,
and the memory that it leaves. -/
def judge (e : Engine) (units : List ProgramUnit) (numbering : Numbering) (l : Loader)
    (memory : Memory) (test : Test) : List BaselineTest × Memory :=
  let start := (l.inState memory .empty 0).setDeadline (some (e.config.testTimeout .zero))
  match Trace.run numbering TestRun.defaultProgramName start test with
  | .error _ => ([], memory)
  | .ok (trace, after) =>
    let kept :=
      if isPass trace.result then
        [⟨{ test with baselineTime := trace.runningTime },
          e.testees units numbering trace test⟩]
      else []
    (kept, (after.image.map (·.memory)).getD memory)

/-- Tests one after the other, each in the memory that the one before left. -/
def judgeAll (e : Engine) (units : List ProgramUnit) (numbering : Numbering) (l : Loader)
    (memory : Memory) : List Test → List BaselineTest
  | [] => []
  | test :: rest =>
    let judged := e.judge units numbering l memory test
    judged.1 ++ e.judgeAll units numbering l judged.2 rest

/-- The image in which a baseline runs its tests, and the numbering of its functions. -/
def loadBaseline (e : Engine) (units : List ProgramUnit) : Except Error (Loader × Numbering) := do
  let objects ← compileUnits units e.config.callTree
  let numbering := Numbering.of objects
  match (Loader.new e.loader).load objects
      (.chain [.overrides, .hostProcess, numbering.resolver]) with
  | (_, .error error) => .error error
  | (l, .ok ()) => return (l, numbering)

theorem baseline_eq_bind (e : Engine) (units : List ProgramUnit) (tests : List Test) :
    e.baseline units tests =
      e.loadBaseline units >>= fun (l, numbering) => e.traceTests units numbering l tests := by
  rw [baseline, loadBaseline, bind_assoc]
  refine congrArg (_ >>= ·) (funext fun objects => ?_)
  dsimp only
  generalize (Loader.new e.loader).load objects _ = loaded
  obtain ⟨l, error | ⟨⟩⟩ := loaded <;> rfl

theorem exists_image_of_loadBaseline (h : e.loadBaseline units = .ok (l, numbering)) :
    ∃ image, l.image = some image ∧ image.memory = .blank e.loader.memoryPages := by
  obtain ⟨objects, -, h⟩ := bind_eq_ok.mp h
  dsimp only at h
  split at h
  · cases h
  · rename_i l' hload
    obtain ⟨rfl, -⟩ := Prod.mk.inj (Except.ok.inj h)
    obtain ⟨image, hlink, rfl⟩ := (Loader.load_eq_ok rfl).mp hload
    obtain ⟨natives, hlinked⟩ := Image.isLinked_of_link hlink
    exact ⟨image, rfl, hlinked.memory⟩

section

variable (himage : l.image = some image)
include himage

/-- Nothing that the host holds before a trace makes a difference. -/
theorem traceRun_withHost (numbering : Numbering) (programName : String) (host : HostState)
    (test : Test) :
    Trace.run numbering programName { l with host } test
      = Trace.run numbering programName l test := by
  have hrun : TestRun.run programName
      (({ l with host } : Loader).mapHost (·.beginTrace numbering.mappingSize)) test
        = TestRun.run programName (l.mapHost (·.beginTrace numbering.mappingSize)) test := by
    have himage' : (({ l with host } : Loader).mapHost (·.beginTrace numbering.mappingSize)).image
        = some image := himage
    rw [TestRun.run_eq_of_loaded programName test himage',
      TestRun.run_eq_of_loaded (l := l.mapHost (·.beginTrace numbering.mappingSize))
        programName test himage]
    rfl
  have hloaded : l.isLoaded = true := by
    rw [Loader.isLoaded, himage]
    rfl
  have hloaded' : ({ l with host } : Loader).isLoaded = true := hloaded
  rw [Trace.run, Trace.run, if_pos hloaded, if_pos hloaded']
  dsimp only
  rw [hrun]
  rfl

/-- A traced run changes memory, host and steps. -/
theorem exists_traceRun {l' : Loader} (h : l.MayBecome l') (numbering : Numbering)
    (programName : String) (test : Test) :
    ∃ trace memory state steps, memory.size = image.memory.size ∧
      Trace.run numbering programName l' test = .ok (trace, l.inState memory state steps) := by
  obtain ⟨image', memory, state, steps, himage', hsize, hafter⟩ := TestRun.mayBecome_run
    (h.mapHost (·.beginTrace numbering.mappingSize)) programName test
  obtain rfl := Option.some.inj (himage.symm.trans himage')
  have hloaded : l'.isLoaded = true := by
    obtain ⟨_, _, -, himage', -⟩ := h.exists_image
    rw [Loader.isLoaded, himage']
    rfl
  rw [Trace.run, if_pos hloaded]
  dsimp only
  rw [hafter]
  exact ⟨_, memory, _, steps, hsize, rfl⟩

theorem judge_eq {numbering : Numbering} {memory memory' : Memory} {state' : HostState}
    {steps' : Nat} {test : Test} {trace : Trace}
    (h : Trace.run numbering TestRun.defaultProgramName
      ((l.inState memory .empty 0).setDeadline (some (e.config.testTimeout .zero))) test
        = .ok (trace, l.inState memory' state' steps')) :
    e.judge units numbering l memory test =
      (if isPass trace.result then
        [⟨{ test with baselineTime := trace.runningTime }, e.testees units numbering trace test⟩]
      else [], memory') := by
  have hmemory : ((l.inState memory' state' steps').image.map (·.memory)).getD memory
      = memory' := by
    show ((l.image.map _).map _).getD _ = _
    rw [himage]
    rfl
  rw [judge, h]
  dsimp only
  rw [hmemory]

/-- The memory is all that one test hands on to the next. -/
theorem traceTests_eq_judgeAll (tests : List Test) (memory : Memory)
    (state : HostState) (steps : Nat) (hsize : memory.size = image.memory.size) :
    e.traceTests units numbering (l.inState memory state steps) tests
      = .ok (e.judgeAll units numbering l memory tests) := by
  induction tests generalizing memory state steps with
  | nil => rfl
  | cons test rest ih =>
    have hstart : ∀ timeout, (l.inState memory state steps).setDeadline timeout =
        { (l.inState memory .empty 0).setDeadline timeout with host := state } := fun _ => rfl
    have hbecome : l.MayBecome ((l.inState memory .empty 0).setDeadline
        (some (e.config.testTimeout .zero))) :=
      Loader.MayBecome.setDeadline ⟨image, memory, .empty, 0, himage, hsize, rfl⟩ _
    obtain ⟨_, image', -, himage', -⟩ := hbecome.exists_image
    obtain ⟨trace, memory', state', steps', hsize', htrace⟩ :=
      exists_traceRun himage hbecome numbering TestRun.defaultProgramName test
    rw [traceTests, hstart, traceRun_withHost himage', htrace, judgeAll, judge_eq himage htrace]
    show (do
      let others ← e.traceTests units numbering (l.inState memory' state' steps') rest
      if isPass trace.result then _ else _) = _
    rw [ih memory' state' steps' hsize']
    show (if isPass trace.result then _ else _) = _
    split <;> rfl

end

/-- Once the units are loaded, the tests of the baseline are judged one after the other. -/
theorem baseline_of_loadBaseline (h : e.loadBaseline units = .ok (l, numbering))
    (tests : List Test) :
    e.baseline units tests
      = .ok (e.judgeAll units numbering l (.blank e.loader.memoryPages) tests) := by
  obtain ⟨image, himage, hmemory⟩ := exists_image_of_loadBaseline h
  rw [baseline_eq_bind, h]
  show e.traceTests units numbering l tests = .ok _
  rw [← hmemory, ← traceTests_eq_judgeAll himage tests image.memory l.host l.stepsLeft rfl,
    Loader.inState_self himage]

/-- A baseline is its tests one after the other in the image that its units are loaded into, with
nothing but the memory in common. -/
theorem baseline_eq_judgeAll (e : Engine) (units : List ProgramUnit) (tests : List Test) :
    e.baseline units tests = (e.loadBaseline units).map fun (l, numbering) =>
      e.judgeAll units numbering l (.blank e.loader.memoryPages) tests := by
  cases h : e.loadBaseline units with
  | error error =>
    rw [baseline_eq_bind, h]
    rfl
  | ok loaded => exact baseline_of_loadBaseline h tests

theorem judgeAll_of_keeps {memory : Memory} {tests : List Test}
    (hkeeps : ∀ test ∈ tests, (e.judge units numbering l memory test).2 = memory) :
    e.judgeAll units numbering l memory tests
      = tests.flatMap fun test => (e.judge units numbering l memory test).1 := by
  induction tests with
  | nil => rfl
  | cons test rest ih =>
    rw [List.forall_mem_cons] at hkeeps
    show (e.judge units numbering l memory test).1 ++ e.judgeAll units numbering l
      (e.judge units numbering l memory test).2 rest = _
    rw [hkeeps.1, ih hkeeps.2]
    rfl

/-- Tests that leave the memory as it was loaded are judged each on its own: the baseline is what
each of them gives as the only test, one after the other. -/
theorem baseline_separate (h : e.loadBaseline units = .ok (l, numbering)) {tests : List Test}
    (hkeeps : ∀ test ∈ tests, (e.judge units numbering l (.blank e.loader.memoryPages) test).2
      = .blank e.loader.memoryPages) :
    ∃ alone : Test → List BaselineTest, (∀ test, e.baseline units [test] = .ok (alone test)) ∧
      e.baseline units tests = .ok (tests.flatMap alone) := by
  refine ⟨fun test => (e.judge units numbering l (.blank e.loader.memoryPages) test).1,
    fun test => ?_, ?_⟩
  · exact (baseline_of_loadBaseline h [test]).trans (congrArg Except.ok (List.append_nil _))
  · exact (baseline_of_loadBaseline h tests).trans (congrArg Except.ok (judgeAll_of_keeps hkeeps))

end Engine

/-! ### Tests that share a counter -/

/-- A function that counts its calls in memory. -/
def counter : Program where
  functions := [{
    name := "next", numParams := 0, numLocals := 4, returnType := .int
    blocks := [⟨[⟨.loadConst, some 0, [.immediate (.int 64)], none⟩,
      ⟨.load, some 1, [.register 0], none⟩,
      ⟨.loadConst, some 2, [.immediate (.int 1)], none⟩,
      ⟨.add, some 3, [.register 1, .register 2], none⟩,
      ⟨.store, none, [.register 0, .register 3], none⟩,
      ⟨.ret, none, [.register 3], none⟩]⟩] }]
  declarations := []
  constructors := []
  version := 1

/-- A test that expects to be the first to count. -/
def counterTest : Program where
  functions := [{
    name := "check", numParams := 0, numLocals := 3, returnType := .int
    blocks := [⟨[⟨.call, some 0, [.symbol "next"], none⟩,
      ⟨.loadConst, some 1, [.immediate (.int 1)], none⟩,
      ⟨.ne, some 2, [.register 0, .register 1], none⟩,
      ⟨.ret, none, [.register 2], none⟩]⟩] }]
  declarations := [⟨"next", 0, .int⟩]
  constructors := []
  version := 1

def counterUnits : List ProgramUnit :=
  [⟨counter, .source, "counter.ir", "m"⟩, ⟨counterTest, .test, "counter_test.ir", "n"⟩]

/-- Two tests that make the same call: the second one passes alone, and not after the first. -/
theorem counter_not_separate :
    let names tests := (doublingEngine.baseline counterUnits tests).toOption.map
      (·.map (·.test.name))
    names [.new "second" "check" []] = some ["second"] ∧
      names [.new "first" "check" [], .new "second" "check" []] = some ["first"] := by
  decide +kernel

end MutationAnalysis
