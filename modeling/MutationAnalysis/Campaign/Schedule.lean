/-
Distributing mutation points over workers.

The points are partitioned, and each slice goes to a worker of its own.  A worker hands over the
results of its slice at once, so they stay together and in order; which slice is done first is left
open.  `WorkerContext.schedule` takes the slices in order, and `WorkerContext.MaySchedule` says what
any order may lead to.
-/
import MutationAnalysis.Campaign.Partition
import MutationAnalysis.Campaign.Worker

namespace MutationAnalysis.WorkerContext

/-- The slices of points for so many workers, of which there is at least one. -/
def slices (workers : Nat) (points : List MutationPoint) : List (List MutationPoint) :=
  (partition points.length (max workers 1)).map fun s => s.of points

/-- The results of slices that are done one after the other. -/
def executeSlices (c : WorkerContext) (progress : Progress) :
    List (List MutationPoint) → List MutationResult × Progress
  | [] => ([], progress)
  | slice :: rest =>
    let (results, progress) := c.execute progress slice
    let (more, progress) := c.executeSlices progress rest
    (results ++ more, progress)

/-- The results of the points, when their slices are done in order. -/
def schedule (c : WorkerContext) (progress : Progress) (workers : Nat)
    (points : List MutationPoint) : List MutationResult × Progress :=
  c.executeSlices progress (slices workers points)

/-- The results and the progress that so many workers may end with: those
of the slices in some order. -/
def MaySchedule (c : WorkerContext) (progress : Progress) (workers : Nat)
    (points : List MutationPoint) (outcome : List MutationResult × Progress) : Prop :=
  ∃ order : List (List MutationPoint), order.Perm (slices workers points) ∧
    outcome = c.executeSlices progress order

end MutationAnalysis.WorkerContext
