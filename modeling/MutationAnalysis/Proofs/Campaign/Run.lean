/-
What a run gets ready, and what it may end with.

A run accepts its tests and units, finds the points that the tests reach, and prepares and compiles
the units, all of which is done in one order.  Then its workers start, whose steps may come in any
(`Engine.MayRun`); `Engine.run` is one of the runs that there may be.

* `Engine.run_eq_ok`: a run that succeeds gets everything ready and takes the slices in order;
* `Engine.MayRun.pairs_perm`: every pair has one result.
-/
import MutationAnalysis.Campaign.Engine
import MutationAnalysis.Proofs.Campaign.Interleaving
import MutationAnalysis.Proofs.Except
import MutationAnalysis.Proofs.Program.Validity

namespace MutationAnalysis.Engine

variable {e : Engine} {units prepared : List ProgramUnit} {tests : List Test}
  {baseline : List BaselineTest} {c : WorkerContext} {results : List MutationResult}

/-- What a run has when its workers start: the baseline, the prepared
units, and what the workers need. -/
structure GetsReady (e : Engine) (units : List ProgramUnit) (tests : List Test)
    (baseline : List BaselineTest) (prepared : List ProgramUnit) (c : WorkerContext) : Prop where
  accepts : validateTests tests = .ok ()
  acceptsUnits : validateUnits units = .ok ()
  passes : e.baseline units tests = .ok baseline
  prepares : prepareUnits (findPoints e.operators units baseline) units = .ok (prepared, c.keys)
  compiles : compileUnits prepared false = .ok c.objects
  context : c = e.context c.objects c.keys (baseline.map (·.test))

section

variable (h : e.GetsReady units tests baseline prepared c)

include h

/-- Workers load what the engine loads. -/
theorem GetsReady.loader_eq : c.loader = e.loader := congrArg WorkerContext.loader h.context

/-- Workers run the tests that passed. -/
theorem GetsReady.tests_eq : c.tests = baseline.map (·.test) :=
  congrArg WorkerContext.tests h.context

theorem GetsReady.sandbox_eq : c.sandbox = .ofIsolation e.config.sandbox :=
  congrArg WorkerContext.sandbox h.context

end

/-- The results of a run whose workers' steps come in some order.  Where the configuration leaves
the number of workers open, there may be any. -/
def MayRun (e : Engine) (units : List ProgramUnit) (tests : List Test)
    (baseline : List BaselineTest) (prepared : List ProgramUnit) (c : WorkerContext)
    (results : List MutationResult) : Prop :=
  e.GetsReady units tests baseline prepared c ∧
    ∃ (workers : Nat) (progress : Progress), (∀ n, e.config.workers = some n → workers = n) ∧
      c.MayEnd (.new (findPoints e.operators units baseline).length) workers
        (findPoints e.operators units baseline) (results, progress)

/-- A run succeeds if it gets everything ready, and then takes the slices in order. -/
theorem run_eq_ok : e.run units tests = .ok results ↔
    ∃ baseline prepared c, e.GetsReady units tests baseline prepared c ∧
      results = (c.schedule (.new (findPoints e.operators units baseline).length)
        e.config.workerCount (findPoints e.operators units baseline)).1 := by
  rw [run, bind_unit_eq_ok, bind_unit_eq_ok]
  constructor
  · rintro ⟨htests, hunits, h⟩
    obtain ⟨baseline, hbaseline, h⟩ := bind_eq_ok.mp h
    obtain ⟨⟨prepared, keys⟩, hprepared, h⟩ := bind_eq_ok.mp h
    obtain ⟨objects, hobjects, h⟩ := bind_eq_ok.mp h
    exact ⟨baseline, prepared, e.context objects keys (baseline.map (·.test)),
      ⟨htests, hunits, hbaseline, hprepared, hobjects, rfl⟩, (Except.ok.inj h).symm⟩
  · rintro ⟨baseline, prepared, c, h, rfl⟩
    refine ⟨h.accepts, h.acceptsUnits, bind_eq_ok.mpr ⟨baseline, h.passes, bind_eq_ok.mpr
      ⟨(prepared, c.keys), h.prepares, bind_eq_ok.mpr ⟨c.objects, h.compiles, ?_⟩⟩⟩⟩
    rw [← h.context]
    rfl

theorem mayRun_of_run (h : e.run units tests = .ok results) :
    ∃ baseline prepared c, e.MayRun units tests baseline prepared c results := by
  obtain ⟨baseline, prepared, c, hready, rfl⟩ := run_eq_ok.mp h
  refine ⟨baseline, prepared, c, hready, e.config.workerCount, _, fun n hn => ?_,
    WorkerContext.mayEnd_iff_maySchedule.mpr ⟨_, .refl _, rfl⟩⟩
  rw [EngineConfig.workerCount, hn, Option.getD_some]

/-- Every pair has one result. -/
theorem MayRun.pairs_perm (h : e.MayRun units tests baseline prepared c results) :
    (results.map MutationResult.pair).Perm
      ((findPoints e.operators units baseline).flatMap MutationPoint.pairs) := by
  obtain ⟨-, workers, progress, -, hend⟩ := h
  exact hend.pairs_perm

/-! ### Units -/

theorem isValid_of_validateUnits (h : validateUnits units = .ok ()) :
    ∀ u ∈ units, u.program.IsValid := by
  intro u hu
  have haccepts := forM_eq_ok.mp h u hu
  split at haccepts
  · rename_i hvalid
    exact Program.isValid_of_validate hvalid
  · cases haccepts

/-- Every unit that may be mutated is prepared, and all others stay as they are. -/
theorem prepareUnits_eq_ok {points : List MutationPoint} {keys : List String} :
    prepareUnits points units = .ok (prepared, keys) →
      List.Forall₂ (fun u u' => if u.role = .source then
        ∃ more, u.prepare points = (u', .ok more) ∧ more ⊆ keys else u' = u) units prepared := by
  induction units generalizing prepared keys with
  | nil =>
    intro h
    obtain ⟨rfl, -⟩ := Prod.mk.inj (Except.ok.inj h)
    exact .nil
  | cons u rest ih =>
    intro h
    rw [prepareUnits] at h
    split at h
    · rename_i hsource
      split at h
      · cases h
      · rename_i u' more hprepare
        obtain ⟨⟨others, keys'⟩, hrest, h⟩ := bind_eq_ok.mp h
        obtain ⟨rfl, rfl⟩ := Prod.mk.inj (Except.ok.inj h)
        -- keys of later units are added to those of this one
        refine .cons ?_ ((ih hrest).imp fun v v' hv => ?_)
        · rw [if_pos hsource]
          exact ⟨more, hprepare, List.subset_append_left _ _⟩
        · split
          · rename_i hv'
            rw [if_pos hv'] at hv
            obtain ⟨more', hv, hsubset⟩ := hv
            exact ⟨more', hv, fun key hkey => List.mem_append_right _ (hsubset hkey)⟩
          · rename_i hv'
            rwa [if_neg hv'] at hv
    · rename_i htest
      obtain ⟨⟨others, keys'⟩, hrest, h⟩ := bind_eq_ok.mp h
      obtain ⟨rfl, rfl⟩ := Prod.mk.inj (Except.ok.inj h)
      exact .cons (by rw [if_neg htest]) (ih hrest)

/-- The keys of a run are those of the units that are prepared. -/
theorem exists_prepare_of_mem_keys {points : List MutationPoint} {keys : List String} {key : String}
    (h : prepareUnits points units = .ok (prepared, keys)) (hkey : key ∈ keys) :
    ∃ u ∈ units, u.role = .source ∧ ∃ u' more, u.prepare points = (u', .ok more) ∧ key ∈ more := by
  induction units generalizing prepared keys with
  | nil =>
    obtain ⟨-, rfl⟩ := Prod.mk.inj (Except.ok.inj h)
    cases hkey
  | cons u rest ih =>
    rw [prepareUnits] at h
    split at h
    · rename_i hrole
      split at h
      · cases h
      · rename_i u' own hprepare
        obtain ⟨⟨others, keys'⟩, hrest, h⟩ := bind_eq_ok.mp h
        obtain ⟨-, rfl⟩ := Prod.mk.inj (Except.ok.inj h)
        rcases List.mem_append.mp hkey with hkey | hkey
        · exact ⟨u, List.mem_cons_self, hrole, u', own, hprepare, hkey⟩
        · obtain ⟨v, hv, hmore⟩ := ih hrest hkey
          exact ⟨v, List.mem_cons_of_mem u hv, hmore⟩
    · obtain ⟨⟨others, keys'⟩, hrest, h⟩ := bind_eq_ok.mp h
      obtain ⟨-, rfl⟩ := Prod.mk.inj (Except.ok.inj h)
      obtain ⟨v, hv, hmore⟩ := ih hrest hkey
      exact ⟨v, List.mem_cons_of_mem u hv, hmore⟩

end MutationAnalysis.Engine
