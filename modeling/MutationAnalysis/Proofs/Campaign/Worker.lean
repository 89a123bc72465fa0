/-
Points leave no trace.

A sandbox that throws away what bodies do to the loader leaves nothing of a test behind but the
deadline, which the next test sets anew.  Once a point's tests have run, binding the preserved body
takes the point's mutant out of its cell again, so the loader is what it was after the set-up, and
the results of a point do not depend on the points before it.

* `WorkerContext.runPoint_withSteps`: the results of one point, and the loader after it;
* `WorkerContext.execute_append`: a worker that meets no invalid execution records for two stretches
  of points what one worker would record for each;
* `WorkerContext.execute_flatten`: the same of any number of slices;
* `WorkerContext.execute_comesOfRun`: a result says that its test was not run, or what the run gave
  in the image that is set up, with nothing but the point's mutant bound.
-/
import MutationAnalysis.Proofs.Campaign.Results
import MutationAnalysis.Proofs.Image.Cells

namespace MutationAnalysis

/-- The sandbox throws away what bodies do to the loader. -/
def Sandbox.DiscardsCopy (s : Sandbox) : Prop :=
  ∀ body timeout l, (s body timeout l).2 = l

theorem Sandbox.discardsCopy_fork : fork.DiscardsCopy := fun _ _ _ => rfl

/-- The loader with so many steps left. -/
def Loader.withSteps (l : Loader) (n : Nat) : Loader := { l with stepsLeft := n }

theorem Loader.sparesCells_withSteps (n : Nat) : SparesCells (·.withSteps n) :=
  ⟨fun _ => rfl, fun _ _ => rfl, fun _ => rfl, fun _ _ => rfl⟩

/-- Every cell holds the address of its key's preserved body. -/
def Trampolines.Rests (t : Trampolines) (l : Loader) : Prop :=
  ∀ key ∈ t.keys, t.BoundTo l key (SymbolName.preserved key)

/-- A result of a test that was neither saved nor invalid. -/
def MutationResult.HasRun (r : MutationResult) : Prop :=
  r.execution.status ≠ .failFast ∧ r.execution.status ≠ .invalid

namespace WorkerContext

variable {c : WorkerContext} {t : Trampolines} {l l' : Loader} {q : MutationPoint}

/-! ### The set-up -/

/-- A table that is set up has a cell for each key of the context. -/
theorem mem_keys_of_setup (h : c.setup = .ok (t, l)) {key : String} :
    key ∈ t.keys ↔ key ∈ c.keys := by
  obtain ⟨l₀, -, hallocate, -, -⟩ := setup_eq_ok.mp h
  exact (Trampolines.numbers_of_allocate hallocate).2.2.2 key

theorem rests_of_setup (h : c.setup = .ok (t, l)) : t.Rests l :=
  fun key hkey => (isSetUp_of_setup h).boundTo key ((mem_keys_of_setup h).mp hkey)

/-! ### One point -/

/-- A test does the same whatever was left of the time before it, and
leaves only a deadline behind. -/
theorem runTest_withSteps (hcopy : c.sandbox.DiscardsCopy) (l : Loader) (n : Nat) (name : String) :
    ∃ left, c.runTest (l.withSteps n) name = ((c.runTest l name).1, l.withSteps left) := by
  rw [runTest, runTest]
  cases c.test? name with
  | none => exact ⟨n, rfl⟩
  | some test => exact ⟨_, Prod.ext rfl (hcopy _ _ _)⟩

theorem runTests_withSteps (hcopy : c.sandbox.DiscardsCopy) (q : MutationPoint) (killed : Bool)
    (l : Loader) (n : Nat) (tests : List (String × Nat)) :
    ∃ left, c.runTests q killed (l.withSteps n) tests
      = ((c.runTests q killed l tests).1, l.withSteps left, (c.runTests q killed l tests).2.2) := by
  induction tests generalizing killed l n with
  | nil => exact ⟨n, rfl⟩
  | cons entry rest ih =>
    obtain ⟨test, distance⟩ := entry
    rw [runTests, runTests]
    split
    · obtain ⟨left, hleft⟩ := ih killed l n
      exact ⟨left, by rw [hleft]⟩
    · -- both loaders run the test alike, and then differ in the time that is left at most
      obtain ⟨left, hleft⟩ := runTest_withSteps hcopy l n test
      obtain ⟨left', hleft'⟩ := runTest_withSteps hcopy l l.stepsLeft test
      replace hleft' : c.runTest l test = ((c.runTest l test).1, l.withSteps left') := hleft'
      rw [hleft, hleft']
      dsimp only
      split
      · exact ⟨left, rfl⟩
      · generalize hkilled : (killed || (c.runTest l test).1.status.kills) = killed'
        obtain ⟨m, hm⟩ := ih killed' l left
        obtain ⟨m', hm'⟩ := ih killed' l left'
        exact ⟨m, by rw [hm, hm']⟩

theorem bindMutant_withSteps (t : Trampolines) (l : Loader) (q : MutationPoint) (n : Nat) :
    bindMutant t (l.withSteps n) q = (bindMutant t l q).map (·.withSteps n) :=
  bindMutant_map (Loader.sparesCells_withSteps n) t l q

/-- A mutant that is bound can be taken out of its cell again. -/
theorem rebind_of_bindMutant (hrests : t.Rests l) (hbind : bindMutant t l q = .ok l') :
    t.bindTo l' q.key (SymbolName.preserved q.key) = .ok l := by
  obtain ⟨a, -, hbind⟩ := bindMutant_eq_ok.mp hbind
  exact Trampolines.rebind (hrests q.key (Trampolines.mem_keys_of_bind hbind)) hbind

/-- A mutant that is bound is bound whatever time is left, and taken out of its cell again. -/
theorem restore_of_bindMutant (hrests : t.Rests l) (hbind : bindMutant t l q = .ok l') (n : Nat) :
    t.bindTo (l'.withSteps n) q.key (SymbolName.preserved q.key) = .ok (l.withSteps n) := by
  have hrests' : t.Rests (l.withSteps n) := hrests
  have hbind' : bindMutant t (l.withSteps n) q = .ok (l'.withSteps n) := by
    rw [bindMutant_withSteps, hbind]
    rfl
  exact rebind_of_bindMutant hrests' hbind'

/-- What a point gives: the results of its tests with its mutant bound, after which the loader is
what it was before; or its mutant cannot be bound. -/
theorem runPoint_withSteps (hcopy : c.sandbox.DiscardsCopy) (hrests : t.Rests l) (q : MutationPoint)
    (n : Nat) :
    (∃ e, bindMutant t l q = .error e ∧
      c.runPoint t (l.withSteps n) q
        = (invalidResults q q.reachableTests e.message, l.withSteps n, .error e)) ∨
    ∃ l' left, bindMutant t l q = .ok l' ∧
      c.runPoint t (l.withSteps n) q = ((c.runTests q false l' q.reachableTests).1,
        l.withSteps left, (c.runTests q false l' q.reachableTests).2.2) := by
  rw [runPoint, bindMutant_withSteps]
  cases hbind : bindMutant t l q with
  | error e => exact .inl ⟨e, rfl, rfl⟩
  | ok l' =>
    obtain ⟨left, hleft⟩ := runTests_withSteps hcopy q false l' n q.reachableTests
    refine .inr ⟨l', left, rfl, ?_⟩
    dsimp only [Except.map]
    rw [hleft]
    dsimp only
    rw [restore_of_bindMutant hrests hbind left]

/-! ### All points -/

theorem runPoints_withSteps (hcopy : c.sandbox.DiscardsCopy) (hrests : t.Rests l) (n n' : Nat)
    (progress progress' : Progress) (points : List MutationPoint) :
    (c.runPoints t (l.withSteps n) progress points).1
      = (c.runPoints t (l.withSteps n') progress' points).1 := by
  induction points generalizing n n' progress progress' with
  | nil => rfl
  | cons q rest ih =>
    rcases runPoint_withSteps hcopy hrests q n with ⟨e, hbind, hrun⟩ | ⟨l', left, hbind, hrun⟩ <;>
      rcases runPoint_withSteps hcopy hrests q n'
        with ⟨e', hbind', hrun'⟩ | ⟨l'', left', hbind', hrun'⟩ <;>
      rw [hbind] at hbind' <;> cases hbind'
    · rw [runPoints_error hrun, runPoints_error hrun']
    · cases houtcome : (c.runTests q false l' q.reachableTests).2.2 with
      | ok u =>
        rw [houtcome] at hrun hrun'
        rw [runPoints_ok hrun, runPoints_ok hrun']
        exact congrArg (_ ++ ·) (ih left left' _ _)
      | error e =>
        rw [houtcome] at hrun hrun'
        rw [runPoints_error hrun, runPoints_error hrun']

/-- Points without tests have no results. -/
theorem runPoints_eq_nil {points : List MutationPoint} (h : ∀ q ∈ points, q.reachableTests = [])
    (c : WorkerContext) (t : Trampolines) (l : Loader) (progress : Progress) :
    (c.runPoints t l progress points).1 = [] := by
  refine List.map_eq_nil_iff.mp ((runPoints_pairs c t l progress points).trans ?_)
  refine List.flatMap_eq_nil_iff.mpr fun q hq => ?_
  rw [MutationPoint.pairs, h q hq, List.map_nil]

/-- Points that are recorded as invalid, and yet leave no invalid result, have no tests. -/
theorem reachableTests_of_no_invalid {points : List MutationPoint} {reason : String}
    (h : ∀ r ∈ points.flatMap fun q => invalidResults q q.reachableTests reason,
      r.execution.status ≠ .invalid) {q : MutationPoint} (hq : q ∈ points) :
    q.reachableTests = [] := by
  cases htests : q.reachableTests with
  | nil => rfl
  | cons entry rest =>
    refine absurd rfl (h ⟨q, entry.1, entry.2, .invalid reason⟩ (List.mem_flatMap.mpr ⟨q, hq, ?_⟩))
    rw [htests]
    exact List.mem_cons_self

/-- Points do not matter to those after them, unless one halts the worker. -/
theorem runPoints_append (hcopy : c.sandbox.DiscardsCopy) (hrests : t.Rests l) (n : Nat)
    (progress : Progress) (as bs : List MutationPoint)
    (h : ∀ r ∈ (c.runPoints t (l.withSteps n) progress (as ++ bs)).1,
      r.execution.status ≠ .invalid) :
    (c.runPoints t (l.withSteps n) progress (as ++ bs)).1
      = (c.runPoints t (l.withSteps n) progress as).1 ++ (c.runPoints t l progress bs).1 := by
  induction as generalizing n progress with
  | nil => exact runPoints_withSteps hcopy hrests n l.stepsLeft progress progress bs
  | cons q rest ih =>
    -- a point that halts the worker leaves no tests to those after it
    have hhalted : ∀ results left e,
        c.runPoint t (l.withSteps n) q = (results, left, .error e) →
        (c.runPoints t (l.withSteps n) progress (q :: rest ++ bs)).1
          = (c.runPoints t (l.withSteps n) progress (q :: rest)).1
            ++ (c.runPoints t l progress bs).1 := by
      intro results left e hrun
      rw [List.cons_append, runPoints_error hrun] at h
      obtain ⟨-, hinvalid⟩ := List.forall_mem_append.mp h
      have hnone : ∀ q ∈ bs, q.reachableTests = [] := fun q hq =>
        reachableTests_of_no_invalid hinvalid (List.mem_append_right rest hq)
      rw [List.cons_append, runPoints_error hrun, runPoints_error hrun, runPoints_eq_nil hnone,
        List.flatMap_append, List.append_nil]
      have hempty : (bs.flatMap fun q =>
          invalidResults q q.reachableTests ("worker halted: " ++ e.message)) = [] :=
        List.flatMap_eq_nil_iff.mpr fun q hq => by rw [hnone q hq]; rfl
      rw [hempty, List.append_nil]
    rcases runPoint_withSteps hcopy hrests q n with ⟨e, -, hrun⟩ | ⟨l', left, -, hrun⟩
    · exact hhalted _ _ _ hrun
    · cases houtcome : (c.runTests q false l' q.reachableTests).2.2 with
      | error e =>
        rw [houtcome] at hrun
        exact hhalted _ _ _ hrun
      | ok u =>
        rw [houtcome] at hrun
        rw [List.cons_append, runPoints_ok hrun] at h ⊢
        rw [runPoints_ok hrun, List.append_assoc]
        refine congrArg (_ ++ ·)
          ((ih left progress.increment (List.forall_mem_append.mp h).2).trans ?_)
        rw [runPoints_results c t l progress.increment progress bs]

/-- A worker that meets no invalid execution records for two stretches of
points what it records for each. -/
theorem execute_append (hcopy : c.sandbox.DiscardsCopy) (progress : Progress)
    (as bs : List MutationPoint)
    (h : ∀ r ∈ (c.execute progress (as ++ bs)).1, r.execution.status ≠ .invalid) :
    (c.execute progress (as ++ bs)).1 = (c.execute progress as).1 ++ (c.execute progress bs).1 := by
  rw [execute] at h ⊢
  rw [execute, execute]
  split at h
  · rw [recordInvalid_eq, recordInvalid_eq, recordInvalid_eq, List.flatMap_append]
  · rename_i t l hsetup
    exact runPoints_append hcopy (rests_of_setup hsetup) l.stepsLeft progress as bs h

/-- What one worker records for all points is what workers record for the slices of the points. -/
theorem execute_flatten (hcopy : c.sandbox.DiscardsCopy) (progress : Progress)
    (slices : List (List MutationPoint))
    (h : ∀ r ∈ (c.execute progress slices.flatten).1, r.execution.status ≠ .invalid) :
    (c.execute progress slices.flatten).1
      = slices.flatMap fun slice => (c.execute progress slice).1 := by
  induction slices with
  | nil => exact List.map_eq_nil_iff.mp (execute_pairs c progress [])
  | cons slice rest ih =>
    rw [List.flatten_cons] at h ⊢
    have happend := execute_append hcopy progress slice rest.flatten h
    rw [happend] at h ⊢
    rw [ih (List.forall_mem_append.mp h).2, List.flatMap_cons]

/-! ### What results come of -/

/-- A result that a run of its test gave in the image that is set up, with
the mutant of its point bound. -/
def ComesOfRun (c : WorkerContext) (r : MutationResult) : Prop :=
  ∃ t l l', c.setup = .ok (t, l) ∧ bindMutant t l r.point = .ok l' ∧
    r.execution = (c.runTest l' r.test).1

variable {r : MutationResult}

theorem not_hasRun_of_mem_invalidResults {tests : List (String × Nat)} {reason : String}
    (hr : r ∈ invalidResults q tests reason) : ¬ r.HasRun := by
  obtain ⟨entry, -, rfl⟩ := List.mem_map.mp hr
  exact fun h => h.2 rfl

/-- Tests of a point do not matter to each other. -/
theorem execution_of_mem_runTests (hcopy : c.sandbox.DiscardsCopy) {killed : Bool}
    {tests : List (String × Nat)} (hr : r ∈ (c.runTests q killed l tests).1)
    (hrun : r.HasRun) : r.point = q ∧ r.execution = (c.runTest l r.test).1 := by
  -- what the tests before leave in the loader is a deadline, so the
  -- loader is the same for each test
  induction tests generalizing killed with
  | nil => cases hr
  | cons entry rest ih =>
    obtain ⟨test, distance⟩ := entry
    rw [runTests] at hr
    split at hr
    · -- the test is saved
      rcases List.mem_cons.mp hr with rfl | hr
      · exact absurd rfl hrun.1
      · exact ih hr
    · obtain ⟨left, hleft⟩ := runTest_withSteps hcopy l l.stepsLeft test
      replace hleft : c.runTest l test = ((c.runTest l test).1, l.withSteps left) := hleft
      rw [hleft] at hr
      dsimp only at hr
      split at hr
      · -- the test was invalid and spoils the others
        rcases List.mem_cons.mp hr with rfl | hr
        · exact ⟨rfl, rfl⟩
        · exact absurd hrun (not_hasRun_of_mem_invalidResults hr)
      · rcases List.mem_cons.mp hr with rfl | hr
        · exact ⟨rfl, rfl⟩
        · generalize (killed || (c.runTest l test).1.status.kills) = killed' at hr
          obtain ⟨_, hrest⟩ := runTests_withSteps hcopy q killed' l left rest
          rw [hrest] at hr
          exact ih hr

/-- Points do not matter to each other. -/
theorem exists_bindMutant_of_mem_runPoints (hcopy : c.sandbox.DiscardsCopy) (hrests : t.Rests l)
    {progress : Progress} {points : List MutationPoint}
    (hr : r ∈ (c.runPoints t l progress points).1) (hrun : r.HasRun) :
    r.point ∈ points ∧ ∃ l', bindMutant t l r.point = .ok l' ∧
      r.execution = (c.runTest l' r.test).1 := by
  induction points generalizing progress with
  | nil => cases hr
  | cons q rest ih =>
    -- a result is one of the first point, or comes after it
    have hself : ∀ l', bindMutant t l q = .ok l' →
        r ∈ (c.runTests q false l' q.reachableTests).1 → r.point ∈ q :: rest ∧
          ∃ l', bindMutant t l r.point = .ok l' ∧ r.execution = (c.runTest l' r.test).1 := by
      intro l' hbind hr
      obtain ⟨rfl, hexecution⟩ := execution_of_mem_runTests hcopy hr hrun
      exact ⟨List.mem_cons_self, l', hbind, hexecution⟩
    have hhalted : ∀ reason, r ∉ rest.flatMap fun q =>
        invalidResults q q.reachableTests reason := by
      intro reason hr
      obtain ⟨k, -, hr⟩ := List.mem_flatMap.mp hr
      exact not_hasRun_of_mem_invalidResults hr hrun
    rcases runPoint_withSteps hcopy hrests q l.stepsLeft with
      ⟨e, -, hpoint⟩ | ⟨l', left, hbind, hpoint⟩
    · replace hpoint : c.runPoint t l q
          = (invalidResults q q.reachableTests e.message, l, .error e) :=
        hpoint
      rw [runPoints_error hpoint] at hr
      rcases List.mem_append.mp hr with hr | hr
      · exact absurd hrun (not_hasRun_of_mem_invalidResults hr)
      · exact absurd hr (hhalted _)
    · replace hpoint : c.runPoint t l q = ((c.runTests q false l' q.reachableTests).1,
        l.withSteps left, (c.runTests q false l' q.reachableTests).2.2) := hpoint
      cases houtcome : (c.runTests q false l' q.reachableTests).2.2 with
      | error e =>
        rw [houtcome] at hpoint
        rw [runPoints_error hpoint] at hr
        rcases List.mem_append.mp hr with hr | hr
        · exact hself l' hbind hr
        · exact absurd hr (hhalted _)
      | ok u =>
        rw [houtcome] at hpoint
        rw [runPoints_ok hpoint] at hr
        rcases List.mem_append.mp hr with hr | hr
        · exact hself l' hbind hr
        · -- the points that are left find the loader that the first one found, but for its deadline
          rw [runPoints_withSteps hcopy hrests left l.stepsLeft progress.increment progress] at hr
          obtain ⟨hmem, hbound⟩ := ih hr
          exact ⟨List.mem_cons_of_mem q hmem, hbound⟩

/-- A worker records of its points what single runs give, unless a test was not run. -/
theorem execute_comesOfRun (hcopy : c.sandbox.DiscardsCopy) {progress : Progress}
    {points : List MutationPoint} (hr : r ∈ (c.execute progress points).1)
    (hrun : r.HasRun) : r.point ∈ points ∧ c.ComesOfRun r := by
  rw [execute] at hr
  split at hr
  · rw [recordInvalid_eq] at hr
    obtain ⟨k, -, hr⟩ := List.mem_flatMap.mp hr
    exact absurd hrun (not_hasRun_of_mem_invalidResults hr)
  · rename_i t l hsetup
    obtain ⟨hmem, l', hbind, hexecution⟩ :=
      exists_bindMutant_of_mem_runPoints hcopy (rests_of_setup hsetup) hr hrun
    exact ⟨hmem, t, l, l', hsetup, hbind, hexecution⟩

end WorkerContext

end MutationAnalysis
