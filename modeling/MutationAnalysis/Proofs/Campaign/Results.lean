/-
One result per pair.

Whatever goes wrong while a worker is at work, it records exactly one result for each test of each
of its points, in order, and counts each point once.  That holds of every way in which results come
about: a test that runs, one that is saved, one that spoils the rest of its point, a point that
cannot be bound, and points that a halted worker, or one that could not be set up, only records.

* `WorkerContext.runPoint_pairs`: the results of one point;
* `WorkerContext.execute_pairs`, `WorkerContext.execute_progress`: those of a slice.
-/
import MutationAnalysis.Campaign.Worker
import Mathlib.Tactic.Common

namespace MutationAnalysis

/-- What a result is about: a point, a test that reaches it, and the distance. -/
def MutationResult.pair (r : MutationResult) : MutationPoint × String × Nat :=
  (r.point, r.test, r.distance)

/-- The pairs of a point, in the order of its tests. -/
def MutationPoint.pairs (p : MutationPoint) : List (MutationPoint × String × Nat) :=
  p.reachableTests.map fun (test, distance) => (p, test, distance)

/-- The progress when so many more points are counted. -/
def Progress.advance (p : Progress) (n : Nat) : Progress :=
  { p with completed := p.completed + n }

theorem Progress.advance_zero (p : Progress) : p.advance 0 = p := rfl

theorem Progress.advance_increment (p : Progress) (n : Nat) :
    p.increment.advance n = p.advance (n + 1) := by
  rw [advance, advance, increment, Nat.add_comm n 1, ← Nat.add_assoc]

theorem Progress.advance_advance (p : Progress) (m n : Nat) :
    (p.advance m).advance n = p.advance (m + n) := by
  rw [advance, advance, advance, Nat.add_assoc]

namespace WorkerContext

variable {c : WorkerContext} {p : MutationPoint} {t : Trampolines} {l : Loader}
  {progress : Progress}

theorem invalidResults_pairs (p : MutationPoint) (tests : List (String × Nat)) (reason : String) :
    (invalidResults p tests reason).map MutationResult.pair
      = tests.map fun (test, distance) => (p, test, distance) := by
  rw [invalidResults, List.map_map]
  rfl

/-- Each of the tests has its result, also after an invalid one. -/
theorem runTests_pairs (c : WorkerContext) (p : MutationPoint) (killed : Bool) (l : Loader)
    (tests : List (String × Nat)) :
    (c.runTests p killed l tests).1.map MutationResult.pair
      = tests.map fun (test, distance) => (p, test, distance) := by
  induction tests generalizing killed l with
  | nil => rfl
  | cons entry rest ih =>
    obtain ⟨test, distance⟩ := entry
    rw [runTests, List.map_cons]
    split
    · -- the mutant is dead: the test is saved
      rw [List.map_cons, ih]
      rfl
    · dsimp only
      split
      · rw [List.map_cons, invalidResults_pairs]
        rfl
      · rw [List.map_cons, ih]
        rfl

theorem runPoint_pairs (c : WorkerContext) (t : Trampolines) (l : Loader) (p : MutationPoint) :
    (c.runPoint t l p).1.map MutationResult.pair = p.pairs := by
  rw [runPoint]
  split
  · exact invalidResults_pairs p p.reachableTests _
  · rename_i l' _
    have hpairs := runTests_pairs c p false l' p.reachableTests
    dsimp only
    split <;> exact hpairs

/-- Points that are only recorded are all recorded alike. -/
theorem recordInvalid_eq (reason : String) (progress : Progress) (points : List MutationPoint) :
    recordInvalid reason progress points
      = (points.flatMap fun p => invalidResults p p.reachableTests reason,
        progress.advance points.length) := by
  induction points generalizing progress with
  | nil => rfl
  | cons p rest ih =>
    rw [recordInvalid, ih, Progress.advance_increment]
    rfl

theorem recordInvalid_pairs (reason : String) (progress : Progress) (points : List MutationPoint) :
    (recordInvalid reason progress points).1.map MutationResult.pair
      = points.flatMap MutationPoint.pairs := by
  rw [recordInvalid_eq, List.map_flatMap]
  simp only [invalidResults_pairs]
  rfl

/-- A point that is run adds its results to those of the points after it. -/
theorem runPoints_ok {results : List MutationResult} {l' : Loader}
    (h : c.runPoint t l p = (results, l', .ok ())) (progress : Progress)
    (rest : List MutationPoint) :
    c.runPoints t l progress (p :: rest)
      = (results ++ (c.runPoints t l' progress.increment rest).1,
        (c.runPoints t l' progress.increment rest).2) := by
  rw [runPoints, h]

/-- A point that halts the worker leaves only recording to do. -/
theorem runPoints_error {results : List MutationResult} {l' : Loader} {e : Error}
    (h : c.runPoint t l p = (results, l', .error e)) (progress : Progress)
    (rest : List MutationPoint) :
    c.runPoints t l progress (p :: rest)
      = (results ++ rest.flatMap fun q =>
          invalidResults q q.reachableTests ("worker halted: " ++ e.message),
        progress.advance (rest.length + 1)) := by
  rw [runPoints, h]
  dsimp only
  rw [recordInvalid_eq, Progress.advance_increment]

theorem runPoints_pairs (c : WorkerContext) (t : Trampolines) (l : Loader) (progress : Progress)
    (points : List MutationPoint) :
    (c.runPoints t l progress points).1.map MutationResult.pair
      = points.flatMap MutationPoint.pairs := by
  induction points generalizing l progress with
  | nil => rfl
  | cons p rest ih =>
    have hpoint := runPoint_pairs c t l p
    rw [List.flatMap_cons]
    match hrun : c.runPoint t l p with
    | (results, l', .ok ()) =>
      rw [hrun] at hpoint
      rw [runPoints_ok hrun, List.map_append, ih, hpoint]
    | (results, l', .error e) =>
      rw [hrun] at hpoint
      rw [runPoints_error hrun, List.map_append, hpoint, List.map_flatMap]
      simp only [invalidResults_pairs]
      rfl

theorem runPoints_progress (c : WorkerContext) (t : Trampolines) (l : Loader) (progress : Progress)
    (points : List MutationPoint) :
    (c.runPoints t l progress points).2 = progress.advance points.length := by
  induction points generalizing l progress with
  | nil => rfl
  | cons p rest ih =>
    match hrun : c.runPoint t l p with
    | (results, l', .ok ()) =>
      rw [runPoints_ok hrun, List.length_cons, ← Progress.advance_increment]
      exact ih l' progress.increment
    | (results, l', .error e) => rw [runPoints_error hrun, List.length_cons]

/-- The results of points do not depend on how many others are counted. -/
theorem runPoints_results (c : WorkerContext) (t : Trampolines) (l : Loader)
    (progress progress' : Progress) (points : List MutationPoint) :
    (c.runPoints t l progress points).1 = (c.runPoints t l progress' points).1 := by
  induction points generalizing l progress progress' with
  | nil => rfl
  | cons p rest ih =>
    match hrun : c.runPoint t l p with
    | (results, l', .ok ()) =>
      rw [runPoints_ok hrun, runPoints_ok hrun]
      exact congrArg (results ++ ·) (ih l' _ _)
    | (results, l', .error e) => rw [runPoints_error hrun, runPoints_error hrun]

/-- A slice has one result per pair of its points, in order. -/
theorem execute_pairs (c : WorkerContext) (progress : Progress) (points : List MutationPoint) :
    (c.execute progress points).1.map MutationResult.pair = points.flatMap MutationPoint.pairs := by
  rw [execute]
  split
  · exact recordInvalid_pairs _ progress points
  · exact runPoints_pairs c _ _ progress points

/-- Every point of a slice is counted once. -/
theorem execute_progress (c : WorkerContext) (progress : Progress) (points : List MutationPoint) :
    (c.execute progress points).2 = progress.advance points.length := by
  rw [execute]
  split
  · rw [recordInvalid_eq]
  · exact runPoints_progress c _ _ progress points

theorem execute_results (c : WorkerContext) (progress progress' : Progress)
    (points : List MutationPoint) :
    (c.execute progress points).1 = (c.execute progress' points).1 := by
  rw [execute, execute]
  split
  · rw [recordInvalid_eq, recordInvalid_eq]
  · exact runPoints_results c _ _ _ _ points

end WorkerContext

end MutationAnalysis
