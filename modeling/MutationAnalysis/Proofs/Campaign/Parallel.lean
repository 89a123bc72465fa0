/-
Many workers find what one finds.

With a sandbox that throws away what bodies do, the results of a point do not depend on the points
before it.  So where the points are cut, and which slice is done first, decides at most where a
result stands, unless an invalid execution halts the one worker.

* `WorkerContext.results_of_one`: what one worker ends with;
* `WorkerContext.parallel_perm`: what any number of workers end with.
-/
import MutationAnalysis.Campaign.Engine
import MutationAnalysis.Proofs.Campaign.Interleaving
import MutationAnalysis.Proofs.Campaign.Worker

namespace MutationAnalysis

/-- All of a result but the time that it took. -/
def MutationResult.observed (r : MutationResult) : MutationPoint × String × Nat × Status × String :=
  (r.point, r.test, r.distance, r.execution.status, r.execution.output)

namespace WorkerContext

variable {c : WorkerContext} {progress progress' : Progress} {workers : Nat}
  {points : List MutationPoint} {one many : List MutationResult × Progress}

/-- One worker takes the points in order. -/
theorem results_of_one (h : c.MayEnd progress 1 points one) : one.1 = c.sliceResults points := by
  obtain ⟨order, hperm, rfl⟩ := h.exists_order
  rcases slices_one points with ⟨hslices, rfl⟩ | hslices
  · rw [hslices, List.perm_nil] at hperm
    rw [hperm]
    exact (List.map_eq_nil_iff.mp (execute_pairs c (.new 0) [])).symm
  · rw [hslices, List.perm_singleton] at hperm
    rw [hperm, List.flatMap_singleton]

/-- Workers that run side by side end with the results of a single one, in some order, if none of
that one's executions is invalid. -/
theorem parallel_perm (hcopy : c.sandbox.DiscardsCopy) (hone : c.MayEnd progress 1 points one)
    (hvalid : ∀ r ∈ one.1, r.execution.status ≠ .invalid)
    (hmany : c.MayEnd progress' workers points many) :
    (many.1.map MutationResult.observed).Perm (one.1.map MutationResult.observed) := by
  rw [results_of_one hone] at hvalid ⊢
  obtain ⟨order, hperm, rfl⟩ := hmany.exists_order
  refine List.Perm.map _ ((hperm.flatMap_right _).trans (.of_eq ?_))
  have hflatten := flatten_slices workers points
  rw [← hflatten] at hvalid
  have hall := execute_flatten hcopy (.new 0) (slices workers points) hvalid
  rw [hflatten] at hall
  exact hall.symm

end WorkerContext

/-! ### A program with a test -/

/-- A program that doubles a number. -/
def doubling : Program where
  functions := [{
    name := "double", numParams := 1, numLocals := 1, returnType := .int
    blocks := [⟨[⟨.add, some 1, [.register 0, .register 0], none⟩,
      ⟨.sub, some 1, [.register 1, .immediate (.int 0)], none⟩,
      ⟨.ret, none, [.register 1], none⟩]⟩] }]
  declarations := []
  constructors := []
  version := 1

/-- A test that doubles two and expects four. -/
def doublingTest : Program where
  functions := [{
    name := "check", numParams := 0, numLocals := 1, returnType := .int
    blocks := [⟨[⟨.call, some 0, [.symbol "double", .immediate (.int 2)], none⟩,
      ⟨.sub, some 0, [.register 0, .immediate (.int 4)], none⟩,
      ⟨.ret, none, [.register 0], none⟩]⟩] }]
  declarations := [⟨"double", 1, .int⟩]
  constructors := []
  version := 1

def doublingUnits : List ProgramUnit :=
  [⟨doubling, .source, "double.json", "m"⟩, ⟨doublingTest, .test, "test.json", "n"⟩]

/-- The addition made a subtraction, which the test finds, and the subtraction made an
addition, which it does not find. -/
def doublingPoints : List MutationPoint :=
  Engine.findPoints [.mathAdd, .mathSub] doublingUnits [⟨.new "doubles" "check" [], [(0, 0, 0)]⟩]

/-- What a worker needs to run the mutants. -/
def doublingContext : WorkerContext :=
  let (prepared, keys) := (Engine.prepareUnits doublingPoints doublingUnits).toOption.getD ([], [])
  ⟨⟨1, 8⟩, (Engine.compileUnits prepared false).toOption.getD [], keys, [.new "doubles" "check" []],
    .fork, .default⟩

/-- Two workers, of which the second is done first. -/
theorem doubling_parallel : ∃ one many, doublingContext.MayEnd (.new 2) 1 doublingPoints one ∧
    one.1.map (·.execution.status) = [.failed, .passed] ∧
    doublingContext.MayEnd (.new 2) 2 doublingPoints many ∧
    many.1.map (·.execution.status) = [.passed, .failed] ∧
    (many.1.map MutationResult.observed).Perm (one.1.map MutationResult.observed) := by
  let one := doublingContext.executeSlices (.new 2) (WorkerContext.slices 1 doublingPoints)
  let many := doublingContext.executeSlices (.new 2) (WorkerContext.slices 2 doublingPoints).reverse
  have hone : doublingContext.MayEnd (.new 2) 1 doublingPoints one :=
    WorkerContext.mayEnd_iff_maySchedule.mpr ⟨_, .refl _, rfl⟩
  have hmany : doublingContext.MayEnd (.new 2) 2 doublingPoints many :=
    WorkerContext.mayEnd_iff_maySchedule.mpr ⟨_, List.reverse_perm _, rfl⟩
  have hvalid : ∀ r ∈ one.1, r.execution.status ≠ .invalid := by decide +kernel
  exact ⟨one, many, hone, by decide +kernel, hmany, by decide +kernel,
    WorkerContext.parallel_perm Sandbox.discardsCopy_fork hone hvalid hmany⟩

end MutationAnalysis
