/-
What a worker did with its slice.

The results of a worker do not tell which of them the sandbox gave, nor in which images tests were
run.  The history of a slice does.  It has an entry for each point, with the results of the point,
for each of them the call of the sandbox that it comes of, and the loader that the point leaves
behind.  A point that is only recorded has neither calls nor a loader.

* `WorkerContext.results_history`, `WorkerContext.points_history`: the results of a slice are those
  in its history, point by point;
* `WorkerContext.recorded_pointHistory`: what the sandbox answers is recorded as it is;
* `WorkerContext.forall_mem_history`: what holds of all points, if running a point keeps it;
* `WorkerContext.execute_withSandbox`: the history leaves out no call: any sandbox that answers the
  calls in it alike leads to the same results;
* `WorkerContext.Runs`, `WorkerContext.runs_historyFrom`: each point is run in the loader
  that the one before it left, until one halts the worker;
* `WorkerContext.isHistory_history`: all of this at once.
-/
import MutationAnalysis.Proofs.Campaign.Results

namespace MutationAnalysis

/-- A call of a sandbox: the test that it is to run, the time that the test may take, and
the loader that it is run in. -/
structure SandboxCall where
  test : Test
  timeout : Duration
  loader : Loader

/-- What a sandbox answers to a call, and the loader that it leaves. -/
def SandboxCall.answer (call : SandboxCall) (s : Sandbox) : Execution × Loader :=
  s (fun l => TestRun.run TestRun.defaultProgramName l call.test) call.timeout call.loader

/-- A result, with the call of the sandbox that it comes of, if it comes of one. -/
structure HistoryEntry where
  call : Option SandboxCall
  result : MutationResult

/-- What became of a point, and the loader after it, if the point was run. -/
structure PointHistory where
  point : MutationPoint
  entries : List HistoryEntry
  after : Option Loader

namespace PointHistory

def results (h : PointHistory) : List MutationResult := h.entries.map (·.result)

/-- The sandbox was called for a test of the point. -/
def HasCall (h : PointHistory) (call : SandboxCall) : Prop :=
  ∃ e ∈ h.entries, e.call = some call

/-- Nothing was run for the point. -/
def IsUnrun (h : PointHistory) : Prop :=
  h.after = none ∧ ∀ call, ¬ h.HasCall call

/-- A point that is not run, all of whose tests are invalid for one reason. -/
def unrun (reason : String) (p : MutationPoint) : PointHistory :=
  ⟨p, (WorkerContext.invalidResults p p.reachableTests reason).map (⟨none, ·⟩), none⟩

end PointHistory

namespace WorkerContext

/-- The call of the sandbox for a test, if the test is known. -/
def callOf? (c : WorkerContext) (l : Loader) (name : String) : Option SandboxCall :=
  (c.test? name).map fun test =>
    let timeout := c.config.testTimeout test.baselineTime
    ⟨test, timeout, l.setDeadline (some timeout)⟩

/-- What became of tests of a point; `killed` says whether one has killed the mutant. -/
def entriesOf (c : WorkerContext) (p : MutationPoint) (killed : Bool) (l : Loader) :
    List (String × Nat) → List HistoryEntry
  | [] => []
  | (test, distance) :: rest =>
    if c.config.failFast && killed then
      ⟨none, ⟨p, test, distance, .failFast⟩⟩ :: c.entriesOf p killed l rest
    else
      let ran := c.runTest l test
      ⟨c.callOf? l test, ⟨p, test, distance, ran.1⟩⟩ ::
        if ran.1.status = .invalid then
          (invalidResults p rest "previous execution was invalid").map (⟨none, ·⟩)
        else c.entriesOf p (killed || ran.1.status.kills) ran.2 rest

/-- What becomes of a point that is run. -/
def pointHistory (c : WorkerContext) (t : Trampolines) (l : Loader) (p : MutationPoint) :
    PointHistory :=
  let entries := match bindMutant t l p with
    | .error e => (invalidResults p p.reachableTests e.message).map (⟨none, ·⟩)
    | .ok l => c.entriesOf p false l p.reachableTests
  ⟨p, entries, some (c.runPoint t l p).2.1⟩

/-- What becomes of points, until one halts the worker and after it. -/
def historyFrom (c : WorkerContext) (t : Trampolines) (l : Loader) :
    List MutationPoint → List PointHistory
  | [] => []
  | p :: rest =>
    c.pointHistory t l p :: match c.runPoint t l p with
      | (_, l, .ok ()) => c.historyFrom t l rest
      | (_, _, .error e) => rest.map (.unrun ("worker halted: " ++ e.message))

/-- What becomes of a slice. -/
def history (c : WorkerContext) (points : List MutationPoint) : List PointHistory :=
  match c.setup with
  | .error e => points.map (.unrun ("worker setup failed: " ++ e.message))
  | .ok (t, l) => c.historyFrom t l points

/-- The context with another sandbox. -/
def withSandbox (c : WorkerContext) (s : Sandbox) : WorkerContext := { c with sandbox := s }

variable {c : WorkerContext} {t : Trampolines} {l : Loader} {p : MutationPoint} {killed : Bool}
  {tests : List (String × Nat)} {points : List MutationPoint} {h : PointHistory}

/-! ### One point -/

/-- A known test is run by the sandbox. -/
theorem runTest_of_callOf? {name : String} {call : SandboxCall} (h : c.callOf? l name = some call) :
    c.runTest l name = call.answer c.sandbox := by
  obtain ⟨test, htest, rfl⟩ := Option.map_eq_some_iff.mp h
  rw [runTest, htest]
  rfl

theorem runTest_of_callOf?_eq_none {name : String} (h : c.callOf? l name = none) :
    c.runTest l name = (.invalid ("unknown test '" ++ name ++ "'"), l) := by
  rw [runTest, Option.map_eq_none_iff.mp h]

theorem map_result_uncalled (results : List MutationResult) :
    (results.map (HistoryEntry.mk none)).map (·.result) = results := by
  rw [List.map_map]
  exact List.map_id results

theorem results_entriesOf (c : WorkerContext) (p : MutationPoint) (killed : Bool) (l : Loader)
    (tests : List (String × Nat)) :
    (c.entriesOf p killed l tests).map (·.result) = (c.runTests p killed l tests).1 := by
  induction tests generalizing killed l with
  | nil => rfl
  | cons entry rest ih =>
    obtain ⟨test, distance⟩ := entry
    rw [entriesOf, runTests]
    split
    · exact congrArg (_ :: ·) (ih killed l)
    · dsimp only
      rw [List.map_cons]
      split
      · rw [map_result_uncalled]
      · rw [ih]

theorem results_pointHistory (c : WorkerContext) (t : Trampolines) (l : Loader)
    (p : MutationPoint) : (c.pointHistory t l p).results = (c.runPoint t l p).1 := by
  rw [PointHistory.results, pointHistory, runPoint]
  cases bindMutant t l p with
  | error e => exact map_result_uncalled _
  | ok l' =>
    refine (results_entriesOf c p false l' p.reachableTests).trans ?_
    dsimp only
    split <;> rfl

theorem results_unrun (reason : String) (p : MutationPoint) :
    (PointHistory.unrun reason p).results = invalidResults p p.reachableTests reason :=
  map_result_uncalled _

theorem not_hasCall_unrun {reason : String} {call : SandboxCall} :
    ¬ (PointHistory.unrun reason p).HasCall call := by
  rintro ⟨e, he, hcall⟩
  obtain ⟨r, -, rfl⟩ := List.mem_map.mp he
  cases hcall

/-- The sandbox is called for a test in a loader that the tests before it left. -/
theorem exists_callOf?_of_entriesOf {I : Loader → Prop}
    (hrun : ∀ l name, I l → I (c.runTest l name).2) (hl : I l) {e : HistoryEntry}
    (he : e ∈ c.entriesOf p killed l tests) {call : SandboxCall} (hcall : e.call = some call) :
    ∃ l' name, I l' ∧ c.callOf? l' name = some call ∧
      e.result.execution = (c.runTest l' name).1 := by
  induction tests generalizing killed l with
  | nil => cases he
  | cons entry rest ih =>
    obtain ⟨test, distance⟩ := entry
    rw [entriesOf] at he
    split at he
    · rcases List.mem_cons.mp he with rfl | he
      · cases hcall
      · exact ih hl he
    · rcases List.mem_cons.mp he with rfl | he
      · exact ⟨l, test, hl, hcall, rfl⟩
      · split at he
        · obtain ⟨r, -, rfl⟩ := List.mem_map.mp he
          cases hcall
        · exact ih (hrun l test hl) he

/-- What the sandbox answers for a test of a point is its result. -/
theorem recorded_pointHistory {e : HistoryEntry} (he : e ∈ (c.pointHistory t l p).entries)
    {call : SandboxCall} (hcall : e.call = some call) :
    e.result.execution = (call.answer c.sandbox).1 := by
  rw [pointHistory] at he
  dsimp only at he
  split at he
  · obtain ⟨r, -, rfl⟩ := List.mem_map.mp he
    cases hcall
  · obtain ⟨l', name, -, hcallOf, hexecution⟩ :=
      exists_callOf?_of_entriesOf (I := fun _ => True) (fun _ _ _ => trivial) trivial he hcall
    rw [hexecution, runTest_of_callOf? hcallOf]

/-! ### All points -/

/-- A point that is run comes before what becomes of the others. -/
theorem historyFrom_ok {results : List MutationResult} {l' : Loader}
    (h : c.runPoint t l p = (results, l', .ok ())) (rest : List MutationPoint) :
    c.historyFrom t l (p :: rest) = c.pointHistory t l p :: c.historyFrom t l' rest := by
  rw [historyFrom, h]

/-- A point that halts the worker leaves the others unrun. -/
theorem historyFrom_error {results : List MutationResult} {l' : Loader} {e : Error}
    (h : c.runPoint t l p = (results, l', .error e)) (rest : List MutationPoint) :
    c.historyFrom t l (p :: rest)
      = c.pointHistory t l p :: rest.map (.unrun ("worker halted: " ++ e.message)) := by
  rw [historyFrom, h]

theorem points_unrun (reason : String) (points : List MutationPoint) :
    (points.map (PointHistory.unrun reason)).map (·.point) = points := by
  rw [List.map_map]
  exact List.map_id points

theorem flatMap_results_unrun (reason : String) (points : List MutationPoint) :
    (points.map (PointHistory.unrun reason)).flatMap (·.results)
      = points.flatMap fun q => invalidResults q q.reachableTests reason := by
  rw [List.flatMap_map]
  simp only [results_unrun]

theorem points_historyFrom (c : WorkerContext) (t : Trampolines) (l : Loader)
    (points : List MutationPoint) : (c.historyFrom t l points).map (·.point) = points := by
  induction points generalizing l with
  | nil => rfl
  | cons p rest ih =>
    match hrun : c.runPoint t l p with
    | (_, l', .ok ()) => rw [historyFrom_ok hrun, List.map_cons, ih, pointHistory]
    | (_, _, .error e) => rw [historyFrom_error hrun, List.map_cons, points_unrun, pointHistory]

theorem results_historyFrom (c : WorkerContext) (t : Trampolines) (l : Loader) (progress : Progress)
    (points : List MutationPoint) :
    (c.runPoints t l progress points).1 = (c.historyFrom t l points).flatMap (·.results) := by
  induction points generalizing l progress with
  | nil => rfl
  | cons p rest ih =>
    have hresults := results_pointHistory c t l p
    match hrun : c.runPoint t l p with
    | (results, l', .ok ()) =>
      rw [hrun] at hresults
      rw [runPoints_ok hrun, historyFrom_ok hrun, List.flatMap_cons, hresults, ih]
    | (results, l', .error e) =>
      rw [hrun] at hresults
      rw [runPoints_error hrun, historyFrom_error hrun, List.flatMap_cons, hresults,
        flatMap_results_unrun]

/-- A history has an entry for each point of the slice, in order. -/
theorem points_history (c : WorkerContext) (points : List MutationPoint) :
    (c.history points).map (·.point) = points := by
  rw [history]
  split
  · exact points_unrun _ points
  · exact points_historyFrom c _ _ points

/-- The results of a slice are those in its history. -/
theorem results_history (c : WorkerContext) (progress : Progress) (points : List MutationPoint) :
    (c.execute progress points).1 = (c.history points).flatMap (·.results) := by
  rw [execute, history]
  cases c.setup with
  | error e =>
    dsimp only
    rw [recordInvalid_eq, flatMap_results_unrun]
  | ok ready => exact results_historyFrom c ready.1 ready.2 progress points

/-- What running a point keeps of the loader holds before each point that is run. -/
theorem forall_mem_historyFrom {I : Loader → Prop} {Q : PointHistory → Prop}
    (hrun : ∀ l p, I l → Q (c.pointHistory t l p) ∧ I (c.runPoint t l p).2.1)
    (hunrun : ∀ reason p, Q (.unrun reason p)) (hl : I l) (hh : h ∈ c.historyFrom t l points) :
    Q h := by
  -- a point that ends well hands its loader on; one that halts the worker leaves the others unrun
  induction points generalizing l with
  | nil => cases hh
  | cons p rest ih =>
    obtain ⟨hpoint, hafter⟩ := hrun l p hl
    match hresult : c.runPoint t l p with
    | (_, l', .ok ()) =>
      rw [hresult] at hafter
      rw [historyFrom_ok hresult] at hh
      rcases List.mem_cons.mp hh with rfl | hh
      · exact hpoint
      · exact ih hafter hh
    | (_, _, .error e) =>
      rw [historyFrom_error hresult] at hh
      rcases List.mem_cons.mp hh with rfl | hh
      · exact hpoint
      · obtain ⟨q, -, rfl⟩ := List.mem_map.mp hh
        exact hunrun _ q

/-- What holds of every point that is run in a loader that is set up,
and of those that are not run. -/
theorem forall_mem_history {I : Trampolines → Loader → Prop} {Q : PointHistory → Prop}
    (hsetup : ∀ t l, c.setup = .ok (t, l) → I t l)
    (hrun : ∀ t l p, I t l → Q (c.pointHistory t l p) ∧ I t (c.runPoint t l p).2.1)
    (hunrun : ∀ reason p, Q (.unrun reason p)) (hh : h ∈ c.history points) : Q h := by
  rw [history] at hh
  split at hh
  · obtain ⟨q, -, rfl⟩ := List.mem_map.mp hh
    exact hunrun _ q
  · rename_i t l hready
    exact forall_mem_historyFrom (hrun t) hunrun (hsetup t l hready) hh

/-! ### Sandboxes that answer alike -/

variable {s : Sandbox}

theorem runTest_withSandbox {name : String}
    (h : ∀ call, c.callOf? l name = some call → call.answer s = call.answer c.sandbox) :
    (c.withSandbox s).runTest l name = c.runTest l name := by
  have hcallOf : (c.withSandbox s).callOf? l name = c.callOf? l name := rfl
  cases hcall : c.callOf? l name with
  | none => rw [runTest_of_callOf?_eq_none hcall, runTest_of_callOf?_eq_none (hcallOf.trans hcall)]
  | some call =>
    rw [runTest_of_callOf? hcall, runTest_of_callOf? (hcallOf.trans hcall)]
    exact h call hcall

theorem runTests_withSandbox (h : ∀ e ∈ c.entriesOf p killed l tests, ∀ call, e.call = some call →
      call.answer s = call.answer c.sandbox) :
    (c.withSandbox s).runTests p killed l tests = c.runTests p killed l tests := by
  induction tests generalizing killed l with
  | nil => rfl
  | cons entry rest ih =>
    obtain ⟨test, distance⟩ := entry
    rw [entriesOf] at h
    rw [runTests, runTests]
    split at h
    · rename_i hsaved
      rw [if_pos hsaved, ih (List.forall_mem_cons.mp h).2]
      exact if_pos hsaved
    · rename_i hrun
      obtain ⟨hfirst, hrest⟩ := List.forall_mem_cons.mp h
      rw [runTest_withSandbox hfirst, if_neg hrun]
      refine (if_neg hrun).trans ?_
      dsimp only at hrest ⊢
      split
      · rfl
      · rename_i hvalid
        rw [if_neg hvalid] at hrest
        rw [ih hrest]

theorem runPoint_withSandbox
    (h : ∀ call, (c.pointHistory t l p).HasCall call → call.answer s = call.answer c.sandbox) :
    (c.withSandbox s).runPoint t l p = c.runPoint t l p := by
  rw [runPoint, runPoint]
  cases hbind : bindMutant t l p with
  | error e => rfl
  | ok l' =>
    have htests : (c.withSandbox s).runTests p false l' p.reachableTests
        = c.runTests p false l' p.reachableTests := by
      refine runTests_withSandbox fun e he call hcall => h call ⟨e, ?_, hcall⟩
      rw [pointHistory, hbind]
      exact he
    dsimp only
    rw [htests]

theorem runPoints_withSandbox (progress : Progress)
    (h : ∀ k ∈ c.historyFrom t l points, ∀ call, k.HasCall call →
      call.answer s = call.answer c.sandbox) :
    (c.withSandbox s).runPoints t l progress points = c.runPoints t l progress points := by
  induction points generalizing l progress with
  | nil => rfl
  | cons p rest ih =>
    have hpoint : (c.withSandbox s).runPoint t l p = c.runPoint t l p := by
      refine runPoint_withSandbox (h _ ?_)
      rw [historyFrom]
      exact List.mem_cons_self
    match hrun : c.runPoint t l p with
    | (results, l', .ok ()) =>
      rw [historyFrom_ok hrun] at h
      rw [runPoints_ok hrun, runPoints_ok (hpoint.trans hrun), ih _ (List.forall_mem_cons.mp h).2]
    | (results, l', .error e) => rw [runPoints_error hrun, runPoints_error (hpoint.trans hrun)]

/-- The sandbox is called for nothing but what the history has: one that answers its calls
alike leads to the same results. -/
theorem execute_withSandbox (progress : Progress)
    (h : ∀ k ∈ c.history points, ∀ call, k.HasCall call → call.answer s = call.answer c.sandbox) :
    (c.withSandbox s).execute progress points = c.execute progress points := by
  have hsetup : (c.withSandbox s).setup = c.setup := rfl
  rw [execute, execute, hsetup]
  rw [history] at h
  cases hready : c.setup with
  | error e => rfl
  | ok ready =>
    rw [hready] at h
    exact runPoints_withSandbox progress h

/-! ### What a history tells -/

/-- What becomes of points, one after the other: each is run in the loader that the one before it
left, until one halts the worker.  Nothing is run for those after it. -/
inductive Runs (c : WorkerContext) (t : Trampolines) :
    Loader → List MutationPoint → List PointHistory → Prop
  | done {l : Loader} : Runs c t l [] []
  | next {l l' : Loader} {p : MutationPoint} {rest : List MutationPoint} {h : PointHistory}
      {others : List PointHistory} (hrun : c.runPoint t l p = (h.results, l', .ok ()))
      (hafter : h.after = some l') (hrest : Runs c t l' rest others) :
      Runs c t l (p :: rest) (h :: others)
  | halt {l l' : Loader} {e : Error} {p : MutationPoint} {rest : List MutationPoint}
      {h : PointHistory} {others : List PointHistory}
      (hrun : c.runPoint t l p = (h.results, l', .error e)) (hafter : h.after = some l')
      (hothers : ∀ h ∈ others, h.IsUnrun) :
      Runs c t l (p :: rest) (h :: others)

/-- A history is that of a slice if it is all that a worker did with it.  It has the points and the
results of the slice in order, and its points were run one after the other in the loader that was
set up.  What the sandbox answered is in it as it was, and the sandbox was called for nothing
else, so that another one leads to the same if it answers these calls alike. -/
structure IsHistory (c : WorkerContext) (progress : Progress) (slice : List MutationPoint)
    (history : List PointHistory) : Prop where
  points : history.map (·.point) = slice
  results : (c.execute progress slice).1 = history.flatMap (·.results)
  recorded : ∀ h ∈ history, ∀ e ∈ h.entries, ∀ call, e.call = some call →
    e.result.execution = (call.answer c.sandbox).1
  runs : ∀ t l, c.setup = .ok (t, l) → c.Runs t l slice history
  unready : ∀ e, c.setup = .error e → ∀ h ∈ history, h.IsUnrun
  complete : ∀ s : Sandbox,
    (∀ h ∈ history, ∀ call, h.HasCall call → call.answer s = call.answer c.sandbox) →
      (c.withSandbox s).execute progress slice = c.execute progress slice

/-- What the sandbox answers for a test of a slice is its result. -/
theorem recorded_history (hh : h ∈ c.history points) : ∀ e ∈ h.entries, ∀ call,
    e.call = some call → e.result.execution = (call.answer c.sandbox).1 := by
  refine forall_mem_history (I := fun _ _ => True) (Q := fun h => ∀ e ∈ h.entries, ∀ call,
    e.call = some call → e.result.execution = (call.answer c.sandbox).1)
    (fun _ _ _ => trivial) ?_ ?_ hh
  · exact fun t l p _ => ⟨fun e he call hcall => recorded_pointHistory he hcall, trivial⟩
  · exact fun reason p e he call hcall => absurd ⟨e, he, hcall⟩ not_hasCall_unrun

theorem isUnrun_unrun (reason : String) (p : MutationPoint) :
    (PointHistory.unrun reason p).IsUnrun :=
  ⟨rfl, fun _ => not_hasCall_unrun⟩

theorem runs_historyFrom (c : WorkerContext) (t : Trampolines) (l : Loader)
    (points : List MutationPoint) : c.Runs t l points (c.historyFrom t l points) := by
  induction points generalizing l with
  | nil => exact .done
  | cons p rest ih =>
    have hresults := results_pointHistory c t l p
    have hafter : (c.pointHistory t l p).after = some (c.runPoint t l p).2.1 := rfl
    match hrun : c.runPoint t l p with
    | (results, l', .ok ()) =>
      rw [hrun] at hresults hafter
      rw [historyFrom_ok hrun]
      exact .next (by rw [hrun, hresults]) hafter (ih l')
    | (results, l', .error e) =>
      rw [hrun] at hresults hafter
      rw [historyFrom_error hrun]
      refine .halt (by rw [hrun, hresults]) hafter fun h hh => ?_
      obtain ⟨q, -, rfl⟩ := List.mem_map.mp hh
      exact isUnrun_unrun _ q

theorem isHistory_history (c : WorkerContext) (progress : Progress) (points : List MutationPoint) :
    c.IsHistory progress points (c.history points) where
  points := points_history c points
  results := results_history c progress points
  recorded _ hh := recorded_history hh
  runs t l hsetup := by
    rw [history, hsetup]
    exact runs_historyFrom c t l points
  unready e hsetup := by
    rw [history, hsetup]
    rintro h hh
    obtain ⟨q, -, rfl⟩ := List.mem_map.mp hh
    exact isUnrun_unrun _ q
  complete _ h := execute_withSandbox progress h

end WorkerContext

end MutationAnalysis
