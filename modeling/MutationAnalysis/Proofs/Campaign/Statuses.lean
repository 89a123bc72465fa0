/-
The statuses that a worker records, one after the other.

Three things end at different times.  A kill saves the tests that are left of its point, if the
run fails fast.  An invalid execution, which is one of a test or of binding a mutant, spoils the
tests that are left of its point and then all points that are left of the slice.  All other
results are what the sandbox answers.

* `WorkerContext.pairwise_spoils`: after an invalid result there are only invalid ones;
* `WorkerContext.areSaved_runTests`: what a test was saved by;
* `WorkerContext.pairwise_saves_runTests`: what comes after a kill;
* `WorkerContext.statuses_execute`: the results of a slice, and of each of its points.
-/
import MutationAnalysis.Proofs.Campaign.FailFast
import MutationAnalysis.Proofs.Campaign.History
import MutationAnalysis.Proofs.TestRun.States

namespace MutationAnalysis

/-! ### Sandboxes -/

/-- No answer of the sandbox says that the test was saved. -/
def Sandbox.SavesNothing (s : Sandbox) : Prop :=
  ∀ call : SandboxCall, (call.answer s).1.status ≠ .failFast

theorem Sandbox.forked_ne_failFast (e : BodyEnd) : (forked e).status ≠ .failFast := by
  unfold forked
  split
  case h_7 code => split <;> exact nofun
  all_goals exact nofun

theorem Sandbox.savesNothing_ofIsolation (i : Isolation) : (ofIsolation i).SavesNothing := by
  intro call
  cases i with
  | fork => exact forked_ne_failFast _
  | none =>
    show (Sandbox.none _ _ _).1.status ≠ _
    rw [Sandbox.none]
    split
    · rename_i o after heq
      obtain ⟨status, output⟩ := o
      rintro rfl
      exact TestRun.run_ne_failFast _ _ _ output (congrArg Prod.fst heq)
    · exact nofun

/-! ### Two results -/

namespace MutationResult

/-- If the earlier of two results is invalid, so is the later. -/
def Spoils (r s : MutationResult) : Prop :=
  r.execution.status = .invalid → s.execution.status = .invalid

/-- If the earlier of two results kills its mutant, the later is of a test that was saved. -/
def Saves (r s : MutationResult) : Prop :=
  r.execution.status.kills = true → s.execution.status = .failFast

/-- A result of a test that was run, and that killed its mutant. -/
def IsKill (r : MutationResult) : Prop :=
  r.execution.status ≠ .failFast ∧ r.execution.status.kills = true

end MutationResult

open MutationResult

/-- What the results of a point are like, when it is one of a worker's slice. -/
structure PointHistory.IsOrderly (h : PointHistory) (c : WorkerContext) : Prop where
  pairs : h.results.map pair = h.point.pairs
  /-- A test is saved, at no cost, by an earlier kill, in a run that fails fast. -/
  saved : ∀ before r after, h.results = before ++ r :: after → r.execution.status = .failFast →
    c.config.failFast = true ∧ r.execution = .failFast ∧ ∃ k ∈ before, k.IsKill
  /-- A run that fails fast saves all tests after a kill. -/
  saves : c.config.failFast = true → h.results.Pairwise Saves
  /-- What the sandbox answers is recorded as it is. -/
  recorded : ∀ e ∈ h.entries, ∀ call, e.call = some call →
    e.result.execution = (call.answer c.sandbox).1

namespace WorkerContext

variable {c : WorkerContext} {t : Trampolines} {l l' : Loader} {q : MutationPoint} {killed : Bool}
  {tests : List (String × Nat)} {results : List MutationResult}

theorem status_of_mem_invalidResults {reason : String} {r : MutationResult}
    (hr : r ∈ invalidResults q tests reason) : r.execution.status = .invalid := by
  obtain ⟨entry, -, rfl⟩ := List.mem_map.mp hr
  rfl

theorem pairwise_spoils_of_invalid (h : ∀ r ∈ results, r.execution.status = .invalid) :
    results.Pairwise Spoils :=
  List.pairwise_of_forall_mem_list fun _ _ s hs _ => h s hs

/-- What is invalid kills no mutant. -/
theorem pairwise_saves_of_invalid (h : ∀ r ∈ results, r.execution.status = .invalid) :
    results.Pairwise Saves := by
  refine List.pairwise_of_forall_mem_list fun r hr _ _ hkills => ?_
  rw [h r hr] at hkills
  cases hkills

/-! ### Invalid results -/

theorem pairwise_spoils_runTests (c : WorkerContext) (q : MutationPoint)
    (killed : Bool) (l : Loader)
    (tests : List (String × Nat)) : (c.runTests q killed l tests).1.Pairwise Spoils := by
  induction tests generalizing killed l with
  | nil => exact .nil
  | cons entry rest ih =>
    obtain ⟨test, distance⟩ := entry
    rw [runTests]
    split
    · exact List.pairwise_cons.mpr ⟨fun _ _ => Status.noConfusion, ih killed l⟩
    · dsimp only
      split
      · refine List.pairwise_cons.mpr ⟨fun s hs _ => status_of_mem_invalidResults hs, ?_⟩
        exact pairwise_spoils_of_invalid fun s hs => status_of_mem_invalidResults hs
      · rename_i hvalid
        exact List.pairwise_cons.mpr ⟨fun _ _ h => absurd h hvalid, ih _ _⟩

/-- Tests that do not halt the worker are not invalid. -/
theorem allValid_runTests (h : (c.runTests q killed l tests).2.2 = .ok ()) :
    AllValid (c.runTests q killed l tests).1 := by
  induction tests generalizing killed l with
  | nil => exact fun r hr => absurd hr List.not_mem_nil
  | cons entry rest ih =>
    obtain ⟨test, distance⟩ := entry
    rw [runTests] at h ⊢
    split at h
    · rename_i hsaved
      rw [if_pos hsaved]
      exact List.forall_mem_cons.mpr ⟨Status.noConfusion, ih h⟩
    · rename_i hrun
      rw [if_neg hrun]
      dsimp only at h ⊢
      split at h
      · cases h
      · rename_i hvalid
        rw [if_neg hvalid]
        exact List.forall_mem_cons.mpr ⟨hvalid, ih h⟩

/-- A point records that its mutant cannot be bound, or the results of its tests, and
it ends well only if they do. -/
theorem runPoint_cases (c : WorkerContext) (t : Trampolines) (l : Loader) (q : MutationPoint) :
    (∃ e, c.runPoint t l q = (invalidResults q q.reachableTests e.message, l, .error e)) ∨
    ∃ l₁, (c.runPoint t l q).1 = (c.runTests q false l₁ q.reachableTests).1 ∧
      ((c.runPoint t l q).2.2 = .ok () →
        (c.runTests q false l₁ q.reachableTests).2.2 = .ok ()) := by
  rw [runPoint]
  cases bindMutant t l q with
  | error e => exact .inl ⟨e, rfl⟩
  | ok l₁ =>
    refine .inr ⟨l₁, ?_⟩
    dsimp only
    split
    · exact ⟨rfl, id⟩
    · -- the cell is not given back, so the point does not end well in any case
      refine ⟨rfl, fun h => ?_⟩
      obtain ⟨u, -, h⟩ := bind_eq_ok.mp h
      cases h

theorem pairwise_spoils_runPoint (c : WorkerContext) (t : Trampolines) (l : Loader)
    (q : MutationPoint) : (c.runPoint t l q).1.Pairwise Spoils := by
  rcases runPoint_cases c t l q with ⟨e, heq⟩ | ⟨l₁, heq, -⟩ <;> rw [heq]
  · exact pairwise_spoils_of_invalid fun r hr => status_of_mem_invalidResults hr
  · exact pairwise_spoils_runTests ..

/-- A point that does not halt the worker has no invalid results. -/
theorem allValid_runPoint (h : c.runPoint t l q = (results, l', .ok ())) : AllValid results := by
  rcases runPoint_cases c t l q with ⟨e, heq⟩ | ⟨l₁, heq, houtcome⟩
  · cases h.symm.trans heq
  · rw [h] at heq houtcome
    obtain rfl : results = _ := heq
    exact allValid_runTests (houtcome rfl)

theorem pairwise_spoils_runPoints (c : WorkerContext) (t : Trampolines) (l : Loader)
    (progress : Progress) (points : List MutationPoint) :
    (c.runPoints t l progress points).1.Pairwise Spoils := by
  induction points generalizing l progress with
  | nil => exact .nil
  | cons q rest ih =>
    have hpoint := pairwise_spoils_runPoint c t l q
    match hrun : c.runPoint t l q with
    | (results, l', .ok ()) =>
      rw [hrun] at hpoint
      rw [runPoints_ok hrun]
      -- the point ended well, so it has nothing that could spoil the others
      have hvalid := allValid_runPoint hrun
      exact List.pairwise_append.mpr ⟨hpoint, ih l' _, fun r hr _ _ h => absurd h (hvalid r hr)⟩
    | (results, l', .error e) =>
      rw [hrun] at hpoint
      rw [runPoints_error hrun]
      have hrest : ∀ s ∈ rest.flatMap fun q =>
          invalidResults q q.reachableTests ("worker halted: " ++ e.message),
          s.execution.status = .invalid := by
        intro s hs
        obtain ⟨q, -, hs⟩ := List.mem_flatMap.mp hs
        exact status_of_mem_invalidResults hs
      exact List.pairwise_append.mpr
        ⟨hpoint, pairwise_spoils_of_invalid hrest, fun _ _ s hs _ => hrest s hs⟩

/-- After an invalid result of a slice there are only invalid ones. -/
theorem pairwise_spoils (c : WorkerContext) (progress : Progress) (points : List MutationPoint) :
    (c.execute progress points).1.Pairwise Spoils := by
  rw [execute]
  split
  · rw [recordInvalid_eq]
    refine pairwise_spoils_of_invalid fun r hr => ?_
    obtain ⟨q, -, hr⟩ := List.mem_flatMap.mp hr
    exact status_of_mem_invalidResults hr
  · exact pairwise_spoils_runPoints ..

/-! ### Tests that are saved -/

theorem runTest_ne_failFast (hsandbox : c.sandbox.SavesNothing) (l : Loader) (name : String) :
    (c.runTest l name).1.status ≠ .failFast := by
  cases hcall : c.callOf? l name with
  | none =>
    rw [runTest_of_callOf?_eq_none hcall]
    exact nofun
  | some call =>
    rw [runTest_of_callOf? hcall]
    exact hsandbox call

/-- Tests among results are saved, at no cost and in a run that fails fast, by a kill before them;
`killed` says whether there was one before all the results. -/
def AreSaved (c : WorkerContext) (killed : Bool) (results : List MutationResult) : Prop :=
  ∀ before r after, results = before ++ r :: after → r.execution.status = .failFast →
    c.config.failFast = true ∧ r.execution = .failFast ∧ (killed = true ∨ ∃ k ∈ before, k.IsKill)

theorem areSaved_of_invalid (h : ∀ r ∈ results, r.execution.status = .invalid) (killed : Bool) :
    c.AreSaved killed results := by
  rintro before r after rfl hr
  have hinvalid := h r (List.mem_append_right before List.mem_cons_self)
  exact absurd (hr.symm.trans hinvalid) nofun

/-- What the first result may be, and what the others then have before them. -/
theorem AreSaved.cons {killed' : Bool} {r : MutationResult} (h : c.AreSaved killed' results)
    (hfirst : r.execution.status = .failFast →
      c.config.failFast = true ∧ r.execution = .failFast ∧ killed = true)
    (hkilled : killed' = true → killed = true ∨ r.IsKill) : c.AreSaved killed (r :: results) := by
  intro before s after heq hs
  rcases List.cons_eq_append_iff.mp heq with ⟨rfl, hhead⟩ | ⟨before', rfl, htail⟩
  · obtain ⟨rfl, -⟩ := List.cons.inj hhead
    obtain ⟨hfast, hexecution, hdead⟩ := hfirst hs
    exact ⟨hfast, hexecution, .inl hdead⟩
  · obtain ⟨hfast, hexecution, hkill⟩ := h before' s after htail hs
    refine ⟨hfast, hexecution, ?_⟩
    rcases hkill with hdead | ⟨k, hk, hkill⟩
    · exact (hkilled hdead).imp_right fun hkill => ⟨r, List.mem_cons_self, hkill⟩
    · exact .inr ⟨k, List.mem_cons_of_mem r hk, hkill⟩

theorem areSaved_runTests (hsandbox : c.sandbox.SavesNothing) (q : MutationPoint) (killed : Bool)
    (l : Loader) (tests : List (String × Nat)) :
    c.AreSaved killed (c.runTests q killed l tests).1 := by
  induction tests generalizing killed l with
  | nil => exact areSaved_of_invalid (fun r hr => absurd hr List.not_mem_nil) killed
  | cons entry rest ih =>
    obtain ⟨test, distance⟩ := entry
    have hran := runTest_ne_failFast hsandbox l test
    rw [runTests]
    split
    · rename_i hsaved
      obtain ⟨hfast, hdead⟩ := Bool.and_eq_true_iff.mp hsaved
      exact (ih killed l).cons (fun _ => ⟨hfast, rfl, hdead⟩) .inl
    · dsimp only
      split
      · rename_i hinvalid
        refine areSaved_of_invalid (List.forall_mem_cons.mpr ⟨hinvalid, fun s hs => ?_⟩) killed
        exact status_of_mem_invalidResults hs
      · refine (ih _ _).cons (fun h => absurd h hran) fun hdead => ?_
        exact (Bool.or_eq_true_iff.mp hdead).imp_right fun hkills => ⟨hran, hkills⟩

/-- A run that fails fast saves all tests after a kill. -/
theorem pairwise_saves_runTests (hfast : c.config.failFast = true) (q : MutationPoint)
    (killed : Bool) (l : Loader) (tests : List (String × Nat)) :
    (c.runTests q killed l tests).1.Pairwise Saves := by
  -- once the mutant is dead, all tests are saved
  have hsaved : ∀ l tests, ∀ s ∈ (c.runTests q true l tests).1, s.execution.status = .failFast := by
    intro l tests s hs
    rw [runTests_saved hfast] at hs
    obtain ⟨entry, -, rfl⟩ := List.mem_map.mp hs
    rfl
  induction tests generalizing killed l with
  | nil => exact .nil
  | cons entry rest ih =>
    cases killed with
    | true =>
      exact List.pairwise_of_forall_mem_list fun _ _ s hs _ => hsaved l (entry :: rest) s hs
    | false =>
      obtain ⟨test, distance⟩ := entry
      rw [runTests, Bool.and_false, if_neg Bool.false_ne_true]
      dsimp only
      split
      · rename_i hinvalid
        refine pairwise_saves_of_invalid (List.forall_mem_cons.mpr ⟨hinvalid, fun s hs => ?_⟩)
        exact status_of_mem_invalidResults hs
      · refine List.pairwise_cons.mpr ⟨fun s hs hkills => ?_, ih _ _⟩
        replace hkills : (c.runTest l test).1.status.kills = true := hkills
        rw [hkills, Bool.or_true] at hs
        exact hsaved _ rest s hs

/-! ### Points -/

/-- A point is orderly if all its results are invalid. -/
theorem isOrderly_of_invalid {h : PointHistory} (hpairs : h.results.map pair = h.point.pairs)
    (hinvalid : ∀ r ∈ h.results, r.execution.status = .invalid)
    (hrecorded : ∀ e ∈ h.entries, ∀ call, e.call = some call →
      e.result.execution = (call.answer c.sandbox).1) : h.IsOrderly c where
  pairs := hpairs
  saved before r after heq hr := by
    obtain ⟨hfast, hexecution, hkill⟩ := areSaved_of_invalid hinvalid false before r after heq hr
    exact ⟨hfast, hexecution, hkill.resolve_left Bool.false_ne_true⟩
  saves _ := pairwise_saves_of_invalid hinvalid
  recorded := hrecorded

/-- What a point records is either that its mutant cannot be bound, or the results of its tests. -/
theorem isOrderly_pointHistory (hsandbox : c.sandbox.SavesNothing) (t : Trampolines) (l : Loader)
    (q : MutationPoint) : (c.pointHistory t l q).IsOrderly c := by
  have hresults := results_pointHistory c t l q
  have hpairs : (c.pointHistory t l q).results.map pair = q.pairs :=
    hresults ▸ runPoint_pairs c t l q
  have hrecorded : ∀ e ∈ (c.pointHistory t l q).entries, ∀ call, e.call = some call →
      e.result.execution = (call.answer c.sandbox).1 := fun _ he _ hcall =>
        recorded_pointHistory he hcall
  rcases runPoint_cases c t l q with ⟨e, hpoint⟩ | ⟨l₁, hpoint, -⟩ <;> rw [hpoint] at hresults
  · refine isOrderly_of_invalid hpairs (fun r hr => ?_) hrecorded
    rw [hresults] at hr
    exact status_of_mem_invalidResults hr
  · refine ⟨hpairs, fun before r after heq hr => ?_, fun hfast => ?_, hrecorded⟩
    · obtain ⟨hrunFast, hexecution, hkill⟩ :=
        areSaved_runTests hsandbox q false l₁ q.reachableTests before r after (hresults ▸ heq) hr
      exact ⟨hrunFast, hexecution, hkill.resolve_left Bool.false_ne_true⟩
    · rw [hresults]
      exact pairwise_saves_runTests hfast q false l₁ q.reachableTests

theorem isOrderly_unrun (c : WorkerContext) (reason : String) (q : MutationPoint) :
    (PointHistory.unrun reason q).IsOrderly c := by
  refine isOrderly_of_invalid ?_ (fun r hr => ?_)
    fun e he call hcall => absurd ⟨e, he, hcall⟩ not_hasCall_unrun
  · rw [results_unrun]
    exact invalidResults_pairs q q.reachableTests reason
  · rw [results_unrun] at hr
    exact status_of_mem_invalidResults hr

/-- The results of a slice are those of its points, one after the other; after an invalid one there
are only invalid ones; and those of each point are orderly. -/
theorem statuses_execute (hsandbox : c.sandbox.SavesNothing) (progress : Progress)
    (points : List MutationPoint) :
    (c.execute progress points).1 = (c.history points).flatMap (·.results) ∧
      (c.history points).map (·.point) = points ∧
      (c.execute progress points).1.Pairwise Spoils ∧ ∀ h ∈ c.history points, h.IsOrderly c := by
  refine ⟨results_history c progress points, points_history c points,
    pairwise_spoils c progress points, fun h hh => ?_⟩
  exact forall_mem_history (I := fun _ _ => True) (Q := fun h => h.IsOrderly c)
    (fun _ _ _ => trivial)
    (fun t l q _ => ⟨isOrderly_pointHistory hsandbox t l q, trivial⟩) (isOrderly_unrun c) hh

end WorkerContext

/-- The first mutant is killed, which saves its second test, and the other is not. -/
theorem doublingTwice_statuses :
    ((doublingTwice.withFailFast true).execute (.new 2) doublingTwicePoints).1.map
        (·.execution.status) = [.failed, .failFast, .passed, .passed] ∧
      ∀ h ∈ (doublingTwice.withFailFast true).history doublingTwicePoints,
        h.IsOrderly (doublingTwice.withFailFast true) := by
  refine ⟨by decide +kernel, ?_⟩
  exact (WorkerContext.statuses_execute (c := doublingTwice.withFailFast true)
    (Sandbox.savesNothing_ofIsolation .fork) (.new 2) doublingTwicePoints).2.2.2

end MutationAnalysis
