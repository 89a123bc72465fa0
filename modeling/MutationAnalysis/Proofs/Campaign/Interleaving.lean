/-
Workers that run side by side.

A worker sets its image up, takes its points one after the other, counting each, and hands over what
it recorded when none is left.  It shares nothing with the others but the count and the results that
were handed over, so the steps of all workers may come in any order (`WorkerContext.Step`).  In the
end there are the results of all slices, each slice's together and in order, and which slice stands
first is all that the order of the steps decides.

* `WorkerContext.owed_of_next`: what a worker has to hand over does not change while it works;
* `WorkerContext.mayEnd_iff_maySchedule`: what any order of the steps ends with;
* `WorkerContext.exactly_once`: every pair has one result, whatever fails and in whatever order.
-/
import MutationAnalysis.Proofs.Campaign.Partition
import MutationAnalysis.Proofs.Campaign.Results
import Mathlib.Logic.Relation

namespace MutationAnalysis

/-- A worker on its way through its slice: the points that are left and the results so far. -/
inductive Worker where
  | waiting (slice : List MutationPoint)
  | running (t : Trampolines) (l : Loader) (rest : List MutationPoint)
      (results : List MutationResult)
  /-- It only records the points that are left as invalid, for one reason. -/
  | halted (reason : String) (rest : List MutationPoint) (results : List MutationResult)

/-- The workers that have not handed over their results, and what all of them share. -/
structure Pool where
  workers : List Worker
  results : List MutationResult
  progress : Progress

namespace Worker

/-- The points that the worker has not counted. -/
def uncounted : Worker → Nat
  | waiting slice => slice.length
  | running _ _ rest _ => rest.length
  | halted _ rest _ => rest.length

/-- The steps that are left until the worker is done. -/
def work : Worker → Nat
  | waiting slice => slice.length + 1
  | running _ _ rest _ => rest.length
  | halted _ rest _ => rest.length

/-- The results of a worker that has no point left. -/
def done? : Worker → Option (List MutationResult)
  | running _ _ [] results => some results
  | halted _ [] results => some results
  | _ => none

end Worker

namespace WorkerContext

variable {c : WorkerContext} {w w' : Worker} {progress progress' : Progress}
  {results : List MutationResult} {slice : List MutationPoint}

/-! ### One worker -/

/-- What a worker does next, and the progress after that. -/
def next (c : WorkerContext) (progress : Progress) : Worker → Option (Worker × Progress)
  | .waiting slice =>
    match c.setup with
    | .error e => some (.halted ("worker setup failed: " ++ e.message) slice [], progress)
    | .ok (t, l) => some (.running t l slice [], progress)
  | .running t l (p :: rest) results =>
    match c.runPoint t l p with
    | (more, l, .ok ()) => some (.running t l rest (results ++ more), progress.increment)
    | (more, _, .error e) =>
      some (.halted ("worker halted: " ++ e.message) rest (results ++ more), progress.increment)
  | .halted reason (p :: rest) results =>
    some (.halted reason rest (results ++ invalidResults p p.reachableTests reason),
      progress.increment)
  | .running _ _ [] _ | .halted _ [] _ => none

/-- All results that a worker will have handed over, those that it has already among them. -/
def owed (c : WorkerContext) : Worker → List MutationResult
  | .waiting slice => (c.execute (.new 0) slice).1
  | .running t l rest results => results ++ (c.runPoints t l (.new 0) rest).1
  | .halted reason rest results =>
    results ++ rest.flatMap fun p => invalidResults p p.reachableTests reason

/-- While a worker works, what it owes stays the same, and it counts the points that it has done. -/
theorem owed_of_next (h : c.next progress w = some (w', progress')) :
    c.owed w' = c.owed w ∧ progress'.advance w'.uncounted = progress.advance w.uncounted := by
  -- what a worker is still to give, and how many points it is still to
  -- count, is the same after its step
  cases w with
  | waiting slice =>
    rw [next] at h
    rw [owed, execute]
    cases hsetup : c.setup with
    | error e =>
      rw [hsetup] at h
      obtain ⟨rfl, rfl⟩ := Prod.mk.inj (Option.some.inj h)
      dsimp only
      rw [recordInvalid_eq]
      exact ⟨rfl, rfl⟩
    | ok s =>
      rw [hsetup] at h
      obtain ⟨rfl, rfl⟩ := Prod.mk.inj (Option.some.inj h)
      exact ⟨rfl, rfl⟩
  | running t l rest results =>
    cases rest with
    | nil => cases h
    | cons p rest =>
      rw [next] at h
      rw [owed]
      split at h
      · rename_i more l' hrun
        obtain ⟨rfl, rfl⟩ := Prod.mk.inj (Option.some.inj h)
        refine ⟨?_, Progress.advance_increment progress rest.length⟩
        rw [runPoints_ok hrun, owed, List.append_assoc]
        dsimp only
        rw [runPoints_results c t l' (.new 0)]
      · rename_i more l' e hrun
        obtain ⟨rfl, rfl⟩ := Prod.mk.inj (Option.some.inj h)
        refine ⟨?_, Progress.advance_increment progress rest.length⟩
        rw [runPoints_error hrun, owed, List.append_assoc]
  | halted reason rest results =>
    cases rest with
    | nil => cases h
    | cons p rest =>
      obtain ⟨rfl, rfl⟩ := Prod.mk.inj (Option.some.inj h)
      refine ⟨?_, Progress.advance_increment progress rest.length⟩
      rw [owed, owed, List.append_assoc, List.flatMap_cons]

/-- A worker that has no point left owes what it has. -/
theorem owed_of_done (h : w.done? = some results) : c.owed w = results ∧ w.uncounted = 0 := by
  match w, h with
  | .running t l [] _, rfl => exact ⟨List.append_nil _, rfl⟩
  | .halted reason [] _, rfl => exact ⟨List.append_nil _, rfl⟩

/-- A worker that has nothing to do is done. -/
theorem exists_done (h : c.next progress w = none) : ∃ results, w.done? = some results := by
  cases w with
  | waiting slice =>
    rw [next] at h
    split at h <;> cases h
  | running t l rest results =>
    cases rest with
    | nil => exact ⟨results, rfl⟩
    | cons p rest =>
      rw [next] at h
      split at h <;> cases h
  | halted reason rest results =>
    cases rest with
    | nil => exact ⟨results, rfl⟩
    | cons p rest => cases h

/-- Every step of a worker brings it closer to its end. -/
theorem work_of_next (h : c.next progress w = some (w', progress')) : w'.work + 1 = w.work := by
  cases w with
  | waiting slice =>
    rw [next] at h
    split at h <;>
      obtain ⟨rfl, rfl⟩ := Prod.mk.inj (Option.some.inj h) <;> rfl
  | running t l rest results =>
    cases rest with
    | nil => cases h
    | cons p rest =>
      rw [next] at h
      split at h <;>
        obtain ⟨rfl, rfl⟩ := Prod.mk.inj (Option.some.inj h) <;> rfl
  | halted reason rest results =>
    cases rest with
    | nil => cases h
    | cons p rest =>
      obtain ⟨rfl, rfl⟩ := Prod.mk.inj (Option.some.inj h)
      rfl

/-! ### All workers -/

/-- One of the workers does what it does next, or hands over its results. -/
inductive Step (c : WorkerContext) : Pool → Pool → Prop
  | work {before after : List Worker} {w w' : Worker} {results : List MutationResult}
      {progress progress' : Progress} (h : c.next progress w = some (w', progress')) :
      Step c ⟨before ++ w :: after, results, progress⟩ ⟨before ++ w' :: after, results, progress'⟩
  | handOver {before after : List Worker} {w : Worker} {results more : List MutationResult}
      {progress : Progress} (h : w.done? = some more) :
      Step c ⟨before ++ w :: after, results, progress⟩
        ⟨before ++ after, results ++ more, progress⟩

/-- Any number of steps of any workers. -/
abbrev Steps (c : WorkerContext) : Pool → Pool → Prop := Relation.ReflTransGen c.Step

/-- The workers of the slices of points before their first steps. -/
def startPool (progress : Progress) (workers : Nat) (points : List MutationPoint) : Pool :=
  ⟨(slices workers points).map .waiting, [], progress⟩

/-- The results and the progress that workers may end with whose steps come in any order. -/
def MayEnd (c : WorkerContext) (progress : Progress) (workers : Nat) (points : List MutationPoint)
    (outcome : List MutationResult × Progress) : Prop :=
  c.Steps (startPool progress workers points) ⟨[], outcome.1, outcome.2⟩

/-- The results of one slice. -/
def sliceResults (c : WorkerContext) (slice : List MutationPoint) : List MutationResult :=
  (c.execute (.new 0) slice).1

/-- How far the workers of slices are: some have handed over the results of theirs, and the others
owe them.  `total` is the progress once all points are counted. -/
structure Accounts (c : WorkerContext) (slices : List (List MutationPoint)) (total : Progress)
    (pool : Pool) : Prop where
  slices : ∃ handed left : List (List MutationPoint), (handed ++ left).Perm slices ∧
    pool.results = handed.flatMap c.sliceResults ∧
    pool.workers.map c.owed = left.map c.sliceResults
  progress : pool.progress.advance (pool.workers.map Worker.uncounted).sum = total

theorem accounts_startPool (c : WorkerContext) (progress : Progress) (workers : Nat)
    (points : List MutationPoint) :
    c.Accounts (slices workers points) (progress.advance points.length)
      (startPool progress workers points) where
  slices := by
    refine ⟨[], slices workers points, .refl _, rfl, ?_⟩
    rw [startPool, List.map_map]
    rfl
  progress := by
    conv_rhs => rw [← flatten_slices workers points, List.length_flatten]
    rw [startPool, List.map_map]
    rfl

/-- A step of a worker adds nothing to the account and takes nothing from it. -/
theorem Accounts.step {slices : List (List MutationPoint)} {total : Progress} {pool pool' : Pool}
    (h : c.Accounts slices total pool) (hstep : c.Step pool pool') :
    c.Accounts slices total pool' := by
  obtain ⟨handed, left, hperm, hresults, howed⟩ := h.slices
  have hprogress := h.progress
  cases hstep with
  | @work before after w w' results progress progress' hnext =>
    obtain ⟨howed', hcount⟩ := owed_of_next hnext
    refine ⟨⟨handed, left, hperm, hresults, ?_⟩, ?_⟩
    · rw [← howed, List.map_append, List.map_append, List.map_cons, List.map_cons, howed']
    · rw [← hprogress]
      simp only [List.map_append, List.map_cons, List.sum_append, List.sum_cons]
      rw [Nat.add_left_comm _ w'.uncounted, Nat.add_left_comm _ w.uncounted,
        ← Progress.advance_advance, hcount, Progress.advance_advance]
  | @handOver before after w results more progress hdone =>
    -- a worker that is done owes its results and nothing more
    obtain ⟨howes, hcount⟩ := owed_of_done (c := c) hdone
    rw [List.map_append, List.map_cons, howes] at howed
    obtain ⟨earlier, others, rfl, hbefore, hrest⟩ := List.map_eq_append_iff.mp howed.symm
    obtain ⟨slice, later, rfl, hslice, hafter⟩ := List.map_eq_cons_iff.mp hrest
    refine ⟨⟨handed ++ [slice], earlier ++ later, ?_, ?_, ?_⟩, ?_⟩
    · refine .trans ?_ hperm
      rw [List.append_assoc, List.singleton_append]
      exact .append_left handed List.perm_middle.symm
    · rw [List.flatMap_append, List.flatMap_singleton, hslice, ← hresults]
    · rw [List.map_append, List.map_append, hbefore, hafter]
    · rw [← hprogress]
      simp only [List.map_append, List.map_cons, List.sum_append, List.sum_cons,
        hcount, Nat.zero_add]

theorem accounts_of_steps {progress : Progress} {workers : Nat} {points : List MutationPoint}
    {pool : Pool} (h : c.Steps (startPool progress workers points) pool) :
    c.Accounts (slices workers points) (progress.advance points.length) pool := by
  induction h with
  | refl => exact accounts_startPool c progress workers points
  | tail _ hstep ih => exact ih.step hstep

/-- A worker can do what is left for it while the others rest, and hand over its results. -/
theorem steps_of_worker (c : WorkerContext) (before after : List Worker) (w : Worker)
    (results : List MutationResult) (progress : Progress) :
    c.Steps ⟨before ++ w :: after, results, progress⟩
      ⟨before ++ after, results ++ c.owed w, progress.advance w.uncounted⟩ := by
  -- by induction on the work that is left for the worker
  induction hwork : w.work generalizing w progress with
  | zero =>
    cases hnext : c.next progress w with
    | some s =>
      have := work_of_next hnext
      omega
    | none =>
      obtain ⟨more, hdone⟩ := exists_done hnext
      obtain ⟨howed, hcount⟩ := owed_of_done (c := c) hdone
      rw [howed, hcount, Progress.advance_zero]
      exact .single (.handOver hdone)
  | succ n ih =>
    cases hnext : c.next progress w with
    | some s =>
      obtain ⟨w', progress'⟩ := s
      obtain ⟨howed, hcount⟩ := owed_of_next hnext
      have hless := work_of_next hnext
      rw [← howed, ← hcount]
      exact .head (.work hnext) (ih w' progress' (by omega))
    | none =>
      obtain ⟨more, hdone⟩ := exists_done hnext
      match w, hdone with
      | .running t l [] _, _ => cases hwork
      | .halted reason [] _, _ => cases hwork

/-- From wherever the workers are, they can all come to their ends. -/
theorem exists_end (c : WorkerContext) (pool : Pool) :
    ∃ outcome : List MutationResult × Progress, c.Steps pool ⟨[], outcome.1, outcome.2⟩ := by
  obtain ⟨workers, results, progress⟩ := pool
  induction workers generalizing results progress with
  | nil => exact ⟨(results, progress), .refl⟩
  | cons w rest ih =>
    obtain ⟨outcome, hend⟩ := ih (results ++ c.owed w) (progress.advance w.uncounted)
    exact ⟨outcome, (steps_of_worker c [] rest w results progress).trans hend⟩

/-! ### The order of the slices -/

/-- Slices that are done one after the other leave their results one after the other. -/
theorem executeSlices_eq (c : WorkerContext) (progress : Progress)
    (order : List (List MutationPoint)) :
    c.executeSlices progress order
      = (order.flatMap c.sliceResults, progress.advance order.flatten.length) := by
  induction order generalizing progress with
  | nil => rfl
  | cons slice rest ih =>
    rw [executeSlices]
    dsimp only
    rw [ih, execute_progress, Progress.advance_advance, List.flatMap_cons, List.flatten_cons,
      List.length_append, sliceResults, execute_results c progress (.new 0)]

/-- The slices in any order have all points. -/
theorem length_flatten_of_perm {workers : Nat} {points : List MutationPoint}
    {order : List (List MutationPoint)} (h : order.Perm (slices workers points)) :
    order.flatten.length = points.length := by
  rw [h.flatten.length_eq, flatten_slices]

/-- Workers that start one after the other, each when the one before it is done. -/
theorem steps_of_order {order left : List (List MutationPoint)} (h : order.Perm left)
    (c : WorkerContext) (results : List MutationResult) (progress : Progress) :
    c.Steps ⟨left.map .waiting, results, progress⟩
      ⟨[], results ++ order.flatMap c.sliceResults, progress.advance order.flatten.length⟩ := by
  induction order generalizing left results progress with
  | nil =>
    rw [List.nil_perm.mp h, List.flatMap_nil, List.append_nil]
    exact .refl
  | cons slice order ih =>
    obtain ⟨before, after, rfl⟩ := List.append_of_mem (h.subset List.mem_cons_self)
    have hrest : order.Perm (before ++ after) := (h.trans List.perm_middle).cons_inv
    have hfirst := steps_of_worker c (before.map .waiting) (after.map .waiting) (.waiting slice)
      results progress
    rw [← List.map_append] at hfirst
    rw [List.map_append, List.map_cons, List.flatMap_cons, ← List.append_assoc, List.flatten_cons,
      List.length_append, ← Progress.advance_advance]
    exact hfirst.trans (ih hrest _ _)

/-- The order of the workers' steps decides in which order the slices stand, and nothing else. -/
theorem mayEnd_iff_maySchedule {progress : Progress} {workers : Nat} {points : List MutationPoint}
    {outcome : List MutationResult × Progress} :
    c.MayEnd progress workers points outcome ↔ c.MaySchedule progress workers points outcome := by
  constructor
  · intro h
    have haccounts := accounts_of_steps h
    obtain ⟨handed, left, hperm, hresults, howed⟩ := haccounts.slices
    obtain rfl : left = [] := List.map_eq_nil_iff.mp howed.symm
    rw [List.append_nil] at hperm
    refine ⟨handed, hperm, Prod.ext ?_ ?_⟩
    · rw [executeSlices_eq]
      exact hresults
    · rw [executeSlices_eq, length_flatten_of_perm hperm]
      exact haccounts.progress
  · rintro ⟨order, hperm, rfl⟩
    rw [executeSlices_eq]
    exact steps_of_order hperm c [] progress

/-- However the steps come, the results are those of the slices, one slice after the other. -/
theorem MayEnd.exists_order {progress : Progress} {workers : Nat} {points : List MutationPoint}
    {outcome : List MutationResult × Progress} (h : c.MayEnd progress workers points outcome) :
    ∃ order : List (List MutationPoint), order.Perm (slices workers points) ∧
      outcome = (order.flatMap c.sliceResults, progress.advance points.length) := by
  obtain ⟨order, hperm, rfl⟩ := mayEnd_iff_maySchedule.mp h
  exact ⟨order, hperm, by rw [executeSlices_eq, length_flatten_of_perm hperm]⟩

/-- However the steps come, every pair has one result. -/
theorem MayEnd.pairs_perm {progress : Progress} {workers : Nat} {points : List MutationPoint}
    {outcome : List MutationResult × Progress} (h : c.MayEnd progress workers points outcome) :
    (outcome.1.map MutationResult.pair).Perm (points.flatMap MutationPoint.pairs) := by
  obtain ⟨order, hperm, rfl⟩ := h.exists_order
  have hpairs : (order.flatMap c.sliceResults).map MutationResult.pair
      = order.flatten.flatMap MutationPoint.pairs := by
    rw [List.map_flatMap, ← List.flatMap_id, List.flatMap_assoc]
    simp only [sliceResults, execute_pairs, id_eq]
  rw [hpairs]
  conv_rhs => rw [← flatten_slices workers points]
  exact hperm.flatten.flatMap_right _

/-- There is one result for each test of each point, in order within each slice, and every point is
counted once: on every way on which results come about, and for every order of the workers' steps,
which can always be brought to an end. -/
theorem exactly_once (c : WorkerContext) (progress : Progress) (workers : Nat)
    (points : List MutationPoint) :
    (∀ slice : List MutationPoint,
      (c.execute progress slice).1.map MutationResult.pair = slice.flatMap MutationPoint.pairs ∧
        (c.execute progress slice).2 = progress.advance slice.length) ∧
    (∀ pool, c.Steps (startPool progress workers points) pool →
      ∃ outcome : List MutationResult × Progress, c.Steps pool ⟨[], outcome.1, outcome.2⟩) ∧
    ∀ outcome, c.MayEnd progress workers points outcome →
      (outcome.1.map MutationResult.pair).Perm (points.flatMap MutationPoint.pairs) ∧
      (∃ order : List (List MutationPoint), order.Perm (slices workers points) ∧
        outcome.1 = order.flatMap fun slice => (c.execute progress slice).1) ∧
      outcome.2 = progress.advance points.length := by
  refine ⟨fun slice => ⟨execute_pairs c progress slice, execute_progress c progress slice⟩,
    fun pool _ => exists_end c pool, fun outcome h => ?_⟩
  have hperm := h.pairs_perm
  obtain ⟨order, horder, rfl⟩ := h.exists_order
  have hresults : c.sliceResults = fun slice => (c.execute progress slice).1 :=
    funext fun slice => execute_results c (.new 0) progress slice
  exact ⟨hperm, ⟨order, horder, by rw [hresults]⟩, rfl⟩

/-- A context with nothing to load, in which no mutant has a body. -/
def bare : WorkerContext := ⟨⟨1, 8⟩, [], [], [], .fork, .default⟩

/-- A point of a function that two tests reach. -/
def barePoint (function : String) : MutationPoint :=
  ⟨"m", function, ⟨0, 0, 0⟩, .mathAdd, "", none, [("near", 0), ("far", 1)]⟩

theorem bare_exactly_once : ∃ outcome,
    bare.MayEnd (.new 2) 2 [barePoint "f", barePoint "g"] outcome ∧
      (outcome.1.map MutationResult.pair).Perm
        [(barePoint "f", "near", 0), (barePoint "f", "far", 1),
        (barePoint "g", "near", 0), (barePoint "g", "far", 1)] ∧ outcome.2 = ⟨2, 2⟩ := by
  obtain ⟨-, hend, hall⟩ := exactly_once bare (.new 2) 2 [barePoint "f", barePoint "g"]
  obtain ⟨outcome, h⟩ := hend _ .refl
  obtain ⟨hperm, -, hprogress⟩ := hall outcome h
  exact ⟨outcome, h, hperm, hprogress⟩

end WorkerContext

end MutationAnalysis
