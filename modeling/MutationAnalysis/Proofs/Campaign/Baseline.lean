/-
What the baseline says.

Tests keep their order, and each that passes lists the functions that it reaches: functions that may
be mutated, and none of them twice.

* `Engine.nodup_tracedFunctions`: a traced test reaches no function twice;
* `Engine.Traces`: how tests are traced one after the other;
* `Engine.isBaseline_of_baseline`: what holds of the tests that pass.
-/
import MutationAnalysis.Campaign.Engine
import MutationAnalysis.Proofs.Image.Realization
import MutationAnalysis.Proofs.Trace.Numbering

namespace MutationAnalysis.Engine

variable {e : Engine} {units : List ProgramUnit} {tests : List Test} {baseline : List BaselineTest}
  {objects : List Object} {probed : Bool}

/-- A function that a test reaches, by its unit. -/
def reached (testee : Nat × Nat × Nat) : Nat × Nat := (testee.1, testee.2.1)

theorem moduleIds_of_compileUnits (h : compileUnits units probed = .ok objects) :
    objects.map (·.moduleId) = units.map (·.identifier) := by
  have hobjects := mapM_eq_ok.mp h
  clear h
  induction hobjects with
  | nil => rfl
  | cons hu _ ih =>
    obtain ⟨c, hc, -, rfl⟩ := Object.compile_eq_ok.mp hu
    obtain ⟨l, hl⟩ := Program.comes_of_compile hc
    rw [List.map_cons, List.map_cons, ih]
    exact congrArg (· :: _) hl.moduleId

/-- The unit that is found has the identifier. -/
theorem identifier_of_unitIndex? {identifier : String} {u : Nat}
    (h : unitIndex? units identifier = some u) :
    ∃ unit, units[u]? = some unit ∧ unit.identifier = identifier := by
  obtain ⟨⟨unit, index⟩, hfind, rfl⟩ := Option.map_eq_some_iff.mp h
  have hmem := List.mem_reverse.mp (List.mem_of_find?_eq_some hfind)
  exact ⟨unit, List.mk_mem_zipIdx_iff_getElem?.mp hmem, by simpa using List.find?_some hfind⟩

/-- A traced test reaches no function twice. -/
theorem nodup_tracedFunctions (hunits : (units.map (·.identifier)).Nodup)
    (hobjects : objects.map (·.moduleId) = units.map (·.identifier)) (e : Engine) {trace : Trace}
    (htrace : trace.callTree.IsGrown) (test : Test) :
    ((e.tracedFunctions units (.of objects) trace test).map reached).Nodup := by
  have hnodup := Trace.nodup_testees (hobjects ▸ hunits) htrace test.entry e.config.maxDistance
  rw [List.Nodup, List.pairwise_map] at hnodup
  rw [tracedFunctions, List.Nodup, List.pairwise_map, List.pairwise_filterMap]
  refine hnodup.imp fun {a a'} hne b hb b' hb' heq => hne ?_
  obtain ⟨u, hu, rfl⟩ := Option.map_eq_some_iff.mp hb
  obtain ⟨u', hu', rfl⟩ := Option.map_eq_some_iff.mp hb'
  obtain ⟨rfl, hindex⟩ := Prod.mk.inj heq
  obtain ⟨unit, hunit, hidentifier⟩ := identifier_of_unitIndex? hu
  obtain ⟨unit', hunit', hidentifier'⟩ := identifier_of_unitIndex? hu'
  obtain rfl := Option.some.inj (hunit.symm.trans hunit')
  exact Prod.ext (hidentifier.symm.trans hidentifier') hindex

theorem nodup_allFunctions (units : List ProgramUnit) :
    ((allFunctions units).map reached).Nodup := by
  rw [allFunctions, List.map_flatMap, List.nodup_flatMap]
  constructor
  · rintro ⟨unit, u⟩ -
    rw [List.map_map]
    exact List.nodup_range.map fun f g hfg => (Prod.mk.inj hfg).2
  · have hindices : (units.zipIdx.map (·.2)).Nodup := by
      rw [List.zipIdx_map_snd]
      exact List.nodup_range'
    rw [List.Nodup, List.pairwise_map] at hindices
    refine hindices.imp fun {a b} hne => ?_
    obtain ⟨unit, u⟩ := a
    obtain ⟨unit', u'⟩ := b
    show List.Disjoint (List.map _ _) (List.map _ _)
    intro x hx hx'
    rw [List.map_map, List.mem_map] at hx hx'
    obtain ⟨f, -, rfl⟩ := hx
    obtain ⟨f', -, heq⟩ := hx'
    exact hne (Prod.mk.inj heq).1.symm

/-- Tests that pass, each of which reaches no function twice. -/
structure IsBaseline (tests : List Test) (baseline : List BaselineTest) : Prop where
  names : (baseline.map (·.test.name)).Sublist (tests.map (·.name))
  reached : ∀ b ∈ baseline, (b.testees.map reached).Nodup

theorem isGrown_of_run {numbering : Numbering} {programName : String} {l l' : Loader} {test : Test}
    {trace : Trace} (h : Trace.run numbering programName l test = .ok (trace, l')) :
    trace.callTree.IsGrown := by
  rw [Trace.run] at h
  split at h
  · obtain ⟨rfl, -⟩ := Prod.mk.inj (Except.ok.inj h)
    exact CallTree.isGrown_ofMapping _
  · cases h

/-- Tests are traced one after the other, and those that pass are kept, each with the time that it
took and the functions that it reaches. -/
inductive Traces (e : Engine) (units : List ProgramUnit) (numbering : Numbering) :
    Loader → List Test → List BaselineTest → Prop
  | nil {l : Loader} : Traces e units numbering l [] []
  | passed {l l' : Loader} {test : Test} {trace : Trace} {rest : List Test}
      {others : List BaselineTest}
      (htrace : Trace.run numbering TestRun.defaultProgramName
        (l.setDeadline (some (e.config.testTimeout .zero))) test = .ok (trace, l'))
      (hpass : isPass trace.result = true) (hrest : Traces e units numbering l' rest others) :
      Traces e units numbering l (test :: rest)
        (⟨{ test with baselineTime := trace.runningTime }, e.testees units numbering trace test⟩
          :: others)
  | failed {l l' : Loader} {test : Test} {trace : Trace} {rest : List Test}
      {others : List BaselineTest}
      (htrace : Trace.run numbering TestRun.defaultProgramName
        (l.setDeadline (some (e.config.testTimeout .zero))) test = .ok (trace, l'))
      (hpass : isPass trace.result = false) (hrest : Traces e units numbering l' rest others) :
      Traces e units numbering l (test :: rest) others

section

variable {numbering : Numbering} {l : Loader}

theorem traces_of_traceTests (h : e.traceTests units numbering l tests = .ok baseline) :
    e.Traces units numbering l tests baseline := by
  induction tests generalizing l baseline with
  | nil =>
    obtain rfl := Except.ok.inj h
    exact .nil
  | cons test rest ih =>
    rw [traceTests] at h
    obtain ⟨⟨trace, l'⟩, htrace, h⟩ := bind_eq_ok.mp h
    obtain ⟨others, hothers, h⟩ := bind_eq_ok.mp h
    dsimp only at h
    cases hpass : isPass trace.result with
    | true =>
      rw [hpass, if_pos rfl] at h
      obtain rfl := Except.ok.inj h
      exact .passed htrace hpass (ih hothers)
    | false =>
      rw [hpass, if_neg Bool.false_ne_true] at h
      obtain rfl := Except.ok.inj h
      exact .failed htrace hpass (ih hothers)

/-- Only functions that may be mutated are kept of what a test reaches. -/
theorem isMutable_of_mem_testees {trace : Trace} {test : Test} {t : Nat × Nat × Nat}
    (h : t ∈ e.testees units numbering trace test) :
    ∃ unit, units[t.1]? = some unit ∧ isMutable unit t.2.1 = true :=
  (Option.any_eq_true _ _).mp (List.mem_filter.mp h).2

theorem Traces.isMutable (h : e.Traces units numbering l tests baseline) :
    ∀ b ∈ baseline, ∀ t ∈ b.testees, ∃ unit, units[t.1]? = some unit ∧
      isMutable unit t.2.1 = true := by
  induction h with
  | nil => simp
  | passed _ _ _ ih => exact List.forall_mem_cons.mpr ⟨fun t ht => isMutable_of_mem_testees ht, ih⟩
  | failed _ _ _ ih => exact ih

theorem Traces.exists_given (h : e.Traces units numbering l tests baseline) :
    ∀ b ∈ baseline, ∃ test ∈ tests, b.test = { test with baselineTime := b.test.baselineTime } := by
  induction h with
  | nil => simp
  | passed _ _ _ ih =>
    refine List.forall_mem_cons.mpr ⟨⟨_, List.mem_cons_self, rfl⟩, fun b hb => ?_⟩
    obtain ⟨given, hgiven, heq⟩ := ih b hb
    exact ⟨given, List.mem_cons_of_mem _ hgiven, heq⟩
  | failed _ _ _ ih =>
    intro b hb
    obtain ⟨given, hgiven, heq⟩ := ih b hb
    exact ⟨given, List.mem_cons_of_mem _ hgiven, heq⟩

end

theorem Traces.isBaseline {l : Loader} (h : e.Traces units (.of objects) l tests baseline)
    (hunits : (units.map (·.identifier)).Nodup)
    (hobjects : objects.map (·.moduleId) = units.map (·.identifier)) :
    IsBaseline tests baseline := by
  induction h with
  | nil => exact ⟨.slnil, by simp⟩
  | @passed _ _ test trace _ _ htrace _ _ ih =>
    have hreached : ((e.testees units (.of objects) trace test).map reached).Nodup := by
      refine List.Nodup.sublist (List.filter_sublist.map _) ?_
      split
      · exact nodup_tracedFunctions hunits hobjects e (isGrown_of_run htrace) test
      · exact nodup_allFunctions units
    exact ⟨ih.names.cons_cons _, List.forall_mem_cons.mpr ⟨hreached, ih.reached⟩⟩
  | failed _ _ _ ih => exact ⟨ih.names.cons _, ih.reached⟩

/-! ### The baseline -/

theorem exists_traces_of_baseline (h : e.baseline units tests = .ok baseline) :
    ∃ objects l, compileUnits units e.config.callTree = .ok objects ∧
      e.Traces units (.of objects) l tests baseline := by
  obtain ⟨objects, hobjects, h⟩ := bind_eq_ok.mp h
  dsimp only at h
  split at h
  · cases h
  · exact ⟨objects, _, hobjects, traces_of_traceTests h⟩

/-- The functions of a baseline may be mutated. -/
theorem isMutable_of_baseline (h : e.baseline units tests = .ok baseline) :
    ∀ b ∈ baseline, ∀ t ∈ b.testees, ∃ unit, units[t.1]? = some unit ∧
      isMutable unit t.2.1 = true := by
  obtain ⟨_, _, -, htraces⟩ := exists_traces_of_baseline h
  exact htraces.isMutable

/-- The tests that pass are given ones, with the time that they took. -/
theorem exists_given_of_baseline (h : e.baseline units tests = .ok baseline) :
    ∀ b ∈ baseline, ∃ test ∈ tests, b.test = { test with baselineTime := b.test.baselineTime } := by
  obtain ⟨_, _, -, htraces⟩ := exists_traces_of_baseline h
  exact htraces.exists_given

theorem isBaseline_of_baseline (hunits : (units.map (·.identifier)).Nodup)
    (h : e.baseline units tests = .ok baseline) : IsBaseline tests baseline := by
  obtain ⟨objects, _, hobjects, htraces⟩ := exists_traces_of_baseline h
  exact htraces.isBaseline hunits (moduleIds_of_compileUnits hobjects)

end MutationAnalysis.Engine
