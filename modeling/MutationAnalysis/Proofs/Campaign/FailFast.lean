/-
Saving tests does not change a verdict.

A run that fails fast leaves out the tests of a mutant that one test has killed already.  Where
bodies run on copies, a test that is left out is missed by no other test, so the two runs agree
until the first kill of a point; after it one run records saved tests, which count as kills, and the
other whatever the tests say, which is never that they are invalid.  The mutant is killed in both.

* `WorkerContext.runTests_failFast`: the tests of one point;
* `WorkerContext.sliceResults_failFast`: the points of one worker;
* `WorkerContext.failFast_summary`: the whole run.
-/
import MutationAnalysis.Proofs.Campaign.Parallel
import MutationAnalysis.Proofs.Report.Summary

namespace MutationAnalysis

/-! ### Results that lead to the same verdicts -/

/-- Some result of the point kills its mutant. -/
def Kills (results : List MutationResult) (q : MutationPoint) : Prop :=
  ∃ r ∈ results, r.point = q ∧ r.execution.status.kills = true

/-- No result is invalid. -/
def AllValid (results : List MutationResult) : Prop :=
  ∀ r ∈ results, r.execution.status ≠ .invalid

/-- Results of the same pairs, none of them invalid, that kill the same mutants. -/
structure JudgeAlike (results results' : List MutationResult) : Prop where
  pairs : (results.map MutationResult.pair).Perm (results'.map MutationResult.pair)
  valid : AllValid results
  valid' : AllValid results'
  kills : ∀ q, Kills results q ↔ Kills results' q

variable {results results' more more' : List MutationResult} {q : MutationPoint}

theorem kills_append : Kills (results ++ more) q ↔ Kills results q ∨ Kills more q := by
  simp only [Kills, List.mem_append, or_and_right, exists_or]

theorem kills_perm (h : results.Perm results') : Kills results q ↔ Kills results' q := by
  simp only [Kills, h.mem_iff]

theorem allValid_append : AllValid (results ++ more) ↔ AllValid results ∧ AllValid more :=
  List.forall_mem_append

/-- What kills a mutant, and what is invalid, is told by the identifier of its point as well. -/
def MutationResult.entry (r : MutationResult) : String × Status :=
  (r.point.identifier, r.execution.status)

theorem hasKill_entries {m : String} :
    HasKill (results.map MutationResult.entry) m ↔ ∃ q, q.identifier = m ∧ Kills results q := by
  constructor
  · rintro ⟨s, hs, hkills⟩
    obtain ⟨r, hr, hentry⟩ := List.mem_map.mp hs
    obtain ⟨rfl, rfl⟩ := Prod.mk.inj hentry
    exact ⟨r.point, rfl, r, hr, rfl, hkills⟩
  · rintro ⟨_, rfl, r, hr, rfl, hkills⟩
    exact ⟨_, List.mem_map_of_mem hr, hkills⟩

namespace JudgeAlike

theorem refl (h : AllValid results) : JudgeAlike results results := ⟨.refl _, h, h, fun _ => .rfl⟩

theorem append (h : JudgeAlike results results') (hmore : JudgeAlike more more') :
    JudgeAlike (results ++ more) (results' ++ more') where
  pairs := by
    rw [List.map_append, List.map_append]
    exact h.pairs.append hmore.pairs
  valid := allValid_append.mpr ⟨h.valid, hmore.valid⟩
  valid' := allValid_append.mpr ⟨h.valid', hmore.valid'⟩
  kills q := by rw [kills_append, kills_append, h.kills, hmore.kills]

theorem flatMap {α : Type} {items : List α} {f g : α → List MutationResult}
    (h : ∀ a ∈ items, JudgeAlike (f a) (g a)) : JudgeAlike (items.flatMap f) (items.flatMap g) := by
  induction items with
  | nil => exact refl fun _ hr => absurd hr List.not_mem_nil
  | cons a rest ih =>
    rw [List.flatMap_cons, List.flatMap_cons]
    exact (h a List.mem_cons_self).append (ih fun b hb => h b (List.mem_cons_of_mem a hb))

theorem perm (h : JudgeAlike results results') (hp : more.Perm results)
    (hp' : more'.Perm results') :
    JudgeAlike more more' where
  pairs := (hp.map _).trans (h.pairs.trans (hp'.map _).symm)
  valid r hr := h.valid r (hp.mem_iff.mp hr)
  valid' r hr := h.valid' r (hp'.mem_iff.mp hr)
  kills q := by rw [kills_perm hp, kills_perm hp', h.kills]

/-- The summaries of such results are the same. -/
theorem summary_eq (h : JudgeAlike results results') :
    Summary.ofResults (results.map MutationResult.entry)
      = Summary.ofResults (results'.map MutationResult.entry) := by
  have hmutants : ∀ results : List MutationResult,
      (results.map MutationResult.entry).map (·.1)
        = (results.map MutationResult.pair).map (·.1.identifier) := by
    intro results
    rw [List.map_map, List.map_map]
    rfl
  have hnone : ∀ (results : List MutationResult) (m : String), AllValid results →
      (m, Status.invalid) ∉ results.map MutationResult.entry := by
    intro results m hvalid hm
    obtain ⟨r, hr, hentry⟩ := List.mem_map.mp hm
    exact hvalid r hr (Prod.mk.inj hentry).2
  refine Summary.ofResults_congr (fun m => ?_) (fun m => ?_) fun m => ?_
  · rw [hmutants, hmutants]
    exact (h.pairs.map _).mem_iff
  · exact iff_of_false (hnone _ m h.valid) (hnone _ m h.valid')
  · simp only [hasKill_entries, h.kills]

end JudgeAlike

/-- The summary of a report is that of its results, in whatever order they came. -/
theorem Report.summary_eq (results : List MutationResult) :
    (Report.of results).summary = Summary.ofResults (results.map MutationResult.entry) := by
  refine Summary.ofResults_perm (((records_perm results).map _).trans (.of_eq ?_))
  rw [List.map_map]
  rfl

namespace WorkerContext

/-- The context with saving tests switched on or off. -/
def withFailFast (c : WorkerContext) (failFast : Bool) : WorkerContext :=
  { c with config := { c.config with failFast } }

variable {c : WorkerContext} {t : Trampolines} {l : Loader}

/-! ### The tests of a point -/

/-- A test that is run, and that is not invalid. -/
theorem runTests_run {killed : Bool} {l' : Loader} {test : String} {e : Execution}
    (hrun : (c.config.failFast && killed) = false) (htest : c.runTest l test = (e, l'))
    (hvalid : e.status ≠ .invalid) (q : MutationPoint) (distance : Nat)
    (rest : List (String × Nat)) :
    (c.runTests q killed l ((test, distance) :: rest)).1
        = ⟨q, test, distance, e⟩ :: (c.runTests q (killed || e.status.kills) l' rest).1
      ∧ (c.runTests q killed l ((test, distance) :: rest)).2.2
        = (c.runTests q (killed || e.status.kills) l' rest).2.2 := by
  rw [runTests, hrun, if_neg Bool.false_ne_true, htest]
  dsimp only
  rw [if_neg hvalid]
  exact ⟨rfl, rfl⟩

/-- A test that is run is not invalid, where no result is. -/
theorem ne_invalid_of_allValid {killed : Bool} {l' : Loader} {test : String} {distance : Nat}
    {e : Execution} {rest : List (String × Nat)} (hrun : (c.config.failFast && killed) = false)
    (htest : c.runTest l test = (e, l'))
    (h : AllValid (c.runTests q killed l ((test, distance) :: rest)).1) : e.status ≠ .invalid := by
  intro hinvalid
  rw [runTests, hrun, if_neg Bool.false_ne_true, htest] at h
  dsimp only at h
  rw [if_pos hinvalid] at h
  exact h _ List.mem_cons_self hinvalid

/-- Once the mutant is dead, a run that fails fast saves all tests that are left. -/
theorem runTests_saved (hfast : c.config.failFast = true) (q : MutationPoint) (l : Loader)
    (tests : List (String × Nat)) :
    c.runTests q true l tests
      = (tests.map fun (test, distance) => ⟨q, test, distance, .failFast⟩, l, .ok ()) := by
  have hsave : (c.config.failFast && true) = true := by rw [hfast, Bool.and_true]
  induction tests with
  | nil => rfl
  | cons entry rest ih =>
    rw [runTests, if_pos hsave, ih]
    rfl

/-- Tests of which none is invalid do not halt the worker. -/
theorem outcome_of_allValid {killed : Bool} {tests : List (String × Nat)}
    (h : AllValid (c.runTests q killed l tests).1) :
    (c.runTests q killed l tests).2.2 = .ok () := by
  induction tests generalizing killed l with
  | nil => rfl
  | cons entry rest ih =>
    obtain ⟨test, distance⟩ := entry
    cases hrun : c.config.failFast && killed with
    | true =>
      rw [runTests, if_pos hrun] at h ⊢
      exact ih (List.forall_mem_cons.mp h).2
    | false =>
      obtain ⟨e, l', htest⟩ : ∃ e l', c.runTest l test = (e, l') := ⟨_, _, rfl⟩
      obtain ⟨hresults, houtcome⟩ :=
        runTests_run hrun htest (ne_invalid_of_allValid hrun htest h) q distance rest
      rw [hresults] at h
      rw [houtcome]
      exact ih (List.forall_mem_cons.mp h).2

/-- The results of a point's tests are about the point. -/
theorem point_of_mem_runTests {killed : Bool} {tests : List (String × Nat)} {r : MutationResult}
    (hr : r ∈ (c.runTests q killed l tests).1) : r.point = q := by
  have hpair := List.mem_map_of_mem (f := MutationResult.pair) hr
  rw [runTests_pairs] at hpair
  obtain ⟨entry, -, hentry⟩ := List.mem_map.mp hpair
  exact (Prod.mk.inj hentry).1.symm

/-- Saving tests of a point after the first kill. -/
theorem runTests_failFast {tests : List (String × Nat)}
    (hvalid : AllValid ((c.withFailFast false).runTests q false l tests).1) :
    JudgeAlike ((c.withFailFast true).runTests q false l tests).1
      ((c.withFailFast false).runTests q false l tests).1 := by
  -- both runs run the first test alike; if it does not kill, they go on from the same loader
  induction tests generalizing l with
  | nil => exact .refl hvalid
  | cons entry rest ih =>
    obtain ⟨test, distance⟩ := entry
    obtain ⟨e, l', htest⟩ : ∃ e l', c.runTest l test = (e, l') := ⟨_, _, rfl⟩
    have hoff : ((c.withFailFast false).config.failFast && false) = false := rfl
    have hon : ((c.withFailFast true).config.failFast && false) = false := rfl
    have hfirst := ne_invalid_of_allValid hoff htest hvalid
    obtain ⟨hoff', -⟩ := runTests_run hoff htest hfirst q distance rest
    obtain ⟨hon', -⟩ := runTests_run hon htest hfirst q distance rest
    rw [hoff'] at hvalid
    obtain ⟨-, hmore⟩ := List.forall_mem_cons.mp hvalid
    by_cases hkills : e.status.kills = true
    · -- the first test kills, so what the others say does not matter
      have hpairs :=
        (runTests_pairs (c.withFailFast true) q false l ((test, distance) :: rest)).trans
        (runTests_pairs (c.withFailFast false) q false l ((test, distance) :: rest)).symm
      refine ⟨.of_eq hpairs, ?_, by rwa [hoff'], fun q' => ?_⟩
      · rw [hon', Bool.false_or, hkills, runTests_saved rfl]
        refine List.forall_mem_cons.mpr ⟨hfirst, fun r hr => ?_⟩
        obtain ⟨entry, -, rfl⟩ := List.mem_map.mp hr
        exact Status.noConfusion
      · by_cases hq : q' = q
        · subst hq
          rw [hon', hoff']
          exact iff_of_true ⟨_, List.mem_cons_self, rfl, hkills⟩
            ⟨_, List.mem_cons_self, rfl, hkills⟩
        · refine iff_of_false ?_ ?_
          · rintro ⟨r, hr, rfl, -⟩
            exact hq (point_of_mem_runTests hr)
          · rintro ⟨r, hr, rfl, -⟩
            exact hq (point_of_mem_runTests hr)
    · rw [hon', hoff']
      rw [Bool.not_eq_true] at hkills
      rw [hkills, Bool.or_false] at hmore ⊢
      exact JudgeAlike.append (.refl (List.forall_mem_singleton.mpr hfirst)) (ih hmore)

/-! ### All points -/

theorem runPoints_failFast (hcopy : c.sandbox.DiscardsCopy) (hrests : t.Rests l) {n n' : Nat}
    {progress progress' : Progress} {points : List MutationPoint}
    (hvalid : AllValid ((c.withFailFast false).runPoints t (l.withSteps n) progress points).1) :
    JudgeAlike ((c.withFailFast true).runPoints t (l.withSteps n') progress' points).1
      ((c.withFailFast false).runPoints t (l.withSteps n) progress points).1 := by
  -- a point leaves the loader as it was in both runs, but for the time that is left
  induction points generalizing n n' progress progress' with
  | nil => exact .refl hvalid
  | cons q rest ih =>
    rcases runPoint_withSteps (c := c.withFailFast false) hcopy hrests q n with
      ⟨e, hbind, hoff⟩ | ⟨l', left, hbind, hoff⟩ <;>
    rcases runPoint_withSteps (c := c.withFailFast true) hcopy hrests q n' with
      ⟨e', hbind', hon⟩ | ⟨l'', left', hbind', hon⟩ <;>
    rw [hbind] at hbind' <;> cases hbind'
    · -- a mutant that cannot be bound halts both workers
      rw [runPoints_error hoff] at hvalid ⊢
      rw [runPoints_error hon]
      exact .refl hvalid
    · have htests : AllValid ((c.withFailFast false).runTests q false l' q.reachableTests).1 := by
        cases houtcome : ((c.withFailFast false).runTests q false l' q.reachableTests).2.2 with
        | ok u =>
          rw [houtcome] at hoff
          rw [runPoints_ok hoff] at hvalid
          exact (allValid_append.mp hvalid).1
        | error e =>
          rw [houtcome] at hoff
          rw [runPoints_error hoff] at hvalid
          exact (allValid_append.mp hvalid).1
      have hpoint := runTests_failFast htests
      rw [outcome_of_allValid htests] at hoff
      rw [outcome_of_allValid hpoint.valid] at hon
      rw [runPoints_ok hoff] at hvalid ⊢
      rw [runPoints_ok hon]
      exact hpoint.append (ih (allValid_append.mp hvalid).2)

/-- The points of one worker. -/
theorem sliceResults_failFast (hcopy : c.sandbox.DiscardsCopy) {slice : List MutationPoint}
    (hvalid : AllValid ((c.withFailFast false).sliceResults slice)) :
    JudgeAlike ((c.withFailFast true).sliceResults slice)
      ((c.withFailFast false).sliceResults slice) := by
  have hsetup (failFast : Bool) : (c.withFailFast failFast).setup = c.setup := rfl
  rw [sliceResults, execute, hsetup] at hvalid ⊢
  rw [sliceResults, execute, hsetup]
  cases hc : c.setup with
  | error e =>
    rw [hc] at hvalid
    exact .refl hvalid
  | ok ready =>
    rw [hc] at hvalid
    exact runPoints_failFast (n := ready.2.stepsLeft) hcopy (rests_of_setup hc) hvalid

/-- If no execution is invalid when all tests are run, then saving those of dead mutants leads to
the same summary, however the points are shared among so many workers. -/
theorem failFast_summary (hcopy : c.sandbox.DiscardsCopy) {workers : Nat}
    {points : List MutationPoint} {progress progress' : Progress}
    {off on : List MutationResult × Progress}
    (hoff : (c.withFailFast false).MayEnd progress workers points off)
    (hvalid : ∀ r ∈ off.1, r.execution.status ≠ .invalid)
    (hon : (c.withFailFast true).MayEnd progress' workers points on) :
    (Report.of on.1).summary = (Report.of off.1).summary := by
  obtain ⟨order, hperm, rfl⟩ := hoff.exists_order
  obtain ⟨order', hperm', rfl⟩ := hon.exists_order
  have hslices : ∀ slice ∈ slices workers points,
      JudgeAlike ((c.withFailFast true).sliceResults slice)
      ((c.withFailFast false).sliceResults slice) := by
    intro slice hslice
    refine sliceResults_failFast hcopy fun r hr => hvalid r ?_
    exact List.mem_flatMap.mpr ⟨slice, hperm.mem_iff.mpr hslice, hr⟩
  have hjudge := (JudgeAlike.flatMap hslices).perm (hperm'.flatMap_right _) (hperm.flatMap_right _)
  rw [Report.summary_eq, Report.summary_eq]
  exact hjudge.summary_eq

end WorkerContext

/-! ### A program with two tests -/

/-- Both tests double two. -/
def doublingTwice : WorkerContext :=
  { doublingContext with tests := [.new "doubles" "check" [], .new "again" "check" []] }

def doublingTwicePoints : List MutationPoint :=
  Engine.findPoints [.mathAdd, .mathSub] doublingUnits
    [⟨.new "doubles" "check" [], [(0, 0, 0)]⟩, ⟨.new "again" "check" [], [(0, 0, 0)]⟩]

/-- The second test of the mutant that the first one kills is saved, and the summary stays. -/
theorem doublingTwice_failFast : ∃ off on,
    (doublingTwice.withFailFast false).MayEnd (.new 2) 2 doublingTwicePoints off ∧
    off.1.map (·.execution.status) = [.failed, .failed, .passed, .passed] ∧
    (doublingTwice.withFailFast true).MayEnd (.new 2) 2 doublingTwicePoints on ∧
    on.1.map (·.execution.status) = [.failed, .failFast, .passed, .passed] ∧
    (Report.of on.1).summary = (Report.of off.1).summary := by
  let slices := WorkerContext.slices 2 doublingTwicePoints
  let off := (doublingTwice.withFailFast false).executeSlices (.new 2) slices
  let on := (doublingTwice.withFailFast true).executeSlices (.new 2) slices
  have hoff : (doublingTwice.withFailFast false).MayEnd (.new 2) 2 doublingTwicePoints off :=
    WorkerContext.mayEnd_iff_maySchedule.mpr ⟨_, .refl _, rfl⟩
  have hon : (doublingTwice.withFailFast true).MayEnd (.new 2) 2 doublingTwicePoints on :=
    WorkerContext.mayEnd_iff_maySchedule.mpr ⟨_, .refl _, rfl⟩
  have hvalid : ∀ r ∈ off.1, r.execution.status ≠ .invalid := by decide +kernel
  exact ⟨off, on, hoff, by decide +kernel, hon, by decide +kernel,
    WorkerContext.failFast_summary Sandbox.discardsCopy_fork hoff hvalid hon⟩

end MutationAnalysis
