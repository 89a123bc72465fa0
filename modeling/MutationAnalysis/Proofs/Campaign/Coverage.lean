/-
What a report covers.

The pairs of a report come a long way: from the functions that tests reach, over the finder's
records and the points of the recorded functions, to the results of the workers and their order in
the report. Nothing is lost or doubled on it, because units differ in their identifiers, a test
reaches no function twice, and a unit is prepared only for points that differ in theirs.

* `Engine.mem_pairs_findPoints`: the pairs of the points that are found;
* `Engine.nodup_identifiers`: points that units are prepared for differ in their identifiers;
* `Engine.MayRun.report_covers`: the pairs of a report.
-/
import MutationAnalysis.Proofs.Campaign.Baseline
import MutationAnalysis.Proofs.Campaign.Parallel
import MutationAnalysis.Proofs.Campaign.Run
import MutationAnalysis.Proofs.Distinct
import MutationAnalysis.Proofs.Mutation.Discovery
import MutationAnalysis.Proofs.Mutation.Identifier
import MutationAnalysis.Proofs.Report.Basic
import MutationAnalysis.Proofs.Unit.Names

namespace MutationAnalysis

namespace Engine

variable {e : Engine} {operators : List Operator} {units prepared : List ProgramUnit}
  {tests : List Test} {baseline : List BaselineTest} {c : WorkerContext}
  {results : List MutationResult}

/-! ### Points of a baseline -/

/-- What the finder is told of a baseline. -/
def recordsOf (units : List ProgramUnit) (baseline : List BaselineTest) : List FinderRecord :=
  baseline.flatMap fun b => b.testees.filterMap fun (u, f, distance) =>
    units[u]?.map fun unit => ⟨unit, f, b.test.name, distance⟩

theorem findPoints_eq (operators : List Operator) (units : List ProgramUnit)
    (baseline : List BaselineTest) : findPoints operators units baseline
      = ((Finder.new operators).takeAll (recordsOf units baseline)).points := by
  rw [findPoints, Finder.takeAll, recordsOf, List.foldl_flatMap]
  refine congrArg Finder.points
    (congrArg (fun step => baseline.foldl step (Finder.new operators)) ?_)
  funext finder b
  rw [List.foldl_filterMap]
  refine congrArg (fun step => b.testees.foldl step finder) ?_
  funext finder t
  dsimp only
  cases units[t.1]? <;> rfl

theorem mem_recordsOf {r : FinderRecord} : r ∈ recordsOf units baseline ↔
    ∃ b ∈ baseline, ∃ u, (u, r.function, r.distance) ∈ b.testees ∧ units[u]? = some r.unit ∧
      b.test.name = r.test := by
  simp only [recordsOf, List.mem_flatMap, List.mem_filterMap, Option.map_eq_some_iff, Prod.exists]
  refine exists_congr fun b => and_congr_right fun _ => exists_congr fun u => ?_
  constructor
  · rintro ⟨f, d, ht, unit, hunit, rfl⟩
    exact ⟨ht, hunit, rfl⟩
  · rintro ⟨ht, hunit, hname⟩
    exact ⟨r.function, r.distance, ht, r.unit, hunit, by rw [hname]⟩

theorem mem_units_of_recordsOf {r : FinderRecord} (h : r ∈ recordsOf units baseline) :
    r.unit ∈ units := by
  obtain ⟨b, -, u, -, hunit, -⟩ := mem_recordsOf.mp h
  exact List.mem_of_getElem? hunit

/-- Where units differ in their identifiers, records of one function are of one unit. -/
theorem eq_of_key (hunits : (units.map (·.identifier)).Nodup) {r r' : FinderRecord}
    (hr : r ∈ recordsOf units baseline) (hr' : r' ∈ recordsOf units baseline)
    (hkey : r.key = r'.key) :
    r.unit = r'.unit ∧ r.function = r'.function := by
  obtain ⟨hidentifier, hfunction⟩ := Prod.mk.inj hkey
  exact ⟨List.inj_on_of_nodup_map hunits (mem_units_of_recordsOf hr) (mem_units_of_recordsOf hr')
    hidentifier, hfunction⟩

/-- No test is recorded twice for one function. -/
theorem nodup_recordsOf (hunits : (units.map (·.identifier)).Nodup)
    (h : IsBaseline tests baseline) (htests : (tests.map (·.name)).Nodup) :
    ((recordsOf units baseline).map fun r => (r.key, r.test)).Nodup := by
  have hnames := h.names.nodup htests
  rw [List.Nodup, List.pairwise_map] at hnames
  rw [recordsOf, List.Nodup, List.pairwise_map, List.pairwise_flatMap]
  constructor
  · intro b hb
    have hreached := h.reached b hb
    rw [List.Nodup, List.pairwise_map] at hreached
    rw [List.pairwise_filterMap]
    refine hreached.imp fun {t t'} hne r hr r' hr' heq => hne ?_
    obtain ⟨unit, hunit, rfl⟩ := Option.map_eq_some_iff.mp hr
    obtain ⟨unit', hunit', rfl⟩ := Option.map_eq_some_iff.mp hr'
    obtain ⟨hidentifier, hfunction⟩ := Prod.mk.inj (Prod.mk.inj heq).1
    refine Prod.ext ?_ hfunction
    -- units of one identifier stand at one place
    have hlt := (List.getElem?_eq_some_iff.mp hunit).1
    refine (List.getElem?_inj (i := t.1) (by rwa [List.length_map]) hunits).mp ?_
    show (units.map (·.identifier))[t.1]? = (units.map (·.identifier))[t'.1]?
    rw [List.getElem?_map, List.getElem?_map, hunit, hunit']
    exact congrArg some hidentifier
  · refine hnames.imp fun {b b'} hne r hr r' hr' heq => hne ?_
    obtain ⟨t, -, hr⟩ := List.mem_filterMap.mp hr
    obtain ⟨unit, -, rfl⟩ := Option.map_eq_some_iff.mp hr
    obtain ⟨t', -, hr'⟩ := List.mem_filterMap.mp hr'
    obtain ⟨unit', -, rfl⟩ := Option.map_eq_some_iff.mp hr'
    exact (Prod.mk.inj heq).2

/-- A point that is found is in a recorded function, with the tests of the function's records. -/
theorem exists_record_of_mem_findPoints {p : MutationPoint}
    (hp : p ∈ findPoints operators units baseline) :
    ∃ r ∈ recordsOf units baseline, ∃ q ∈ r.unit.points operators r.function,
      p = q.withTests (Finder.testsOf (recordsOf units baseline) r.key) := by
  rw [findPoints_eq, Finder.points_takeAll] at hp
  obtain ⟨key, -, hp⟩ := List.mem_flatMap.mp hp
  rw [Finder.pointsOf] at hp
  cases hfind : (recordsOf units baseline).find? (·.key == key) with
  | none =>
    rw [hfind] at hp
    cases hp
  | some r =>
    rw [hfind] at hp
    obtain rfl : r.key = key := by simpa using List.find?_some hfind
    obtain ⟨q, hq, rfl⟩ := List.mem_map.mp hp
    exact ⟨r, List.mem_of_find?_eq_some hfind, q, hq, rfl⟩

/-- The points that are found are those of the recorded functions, with
the tests of their records. -/
theorem mem_findPoints (hunits : (units.map (·.identifier)).Nodup) {p : MutationPoint} :
    p ∈ findPoints operators units baseline ↔ ∃ r ∈ recordsOf units baseline,
      ∃ q ∈ r.unit.points operators r.function,
        p = q.withTests (Finder.testsOf (recordsOf units baseline) r.key) := by
  refine ⟨exists_record_of_mem_findPoints, ?_⟩
  rintro ⟨r, hr, q, hq, rfl⟩
  rw [findPoints_eq, Finder.points_takeAll, List.mem_flatMap]
  refine ⟨r.key, List.mem_eraseDups.mpr (List.mem_map_of_mem hr), ?_⟩
  rw [Finder.pointsOf]
  -- the first record of a function is of the unit that all its records are of
  cases hfind : (recordsOf units baseline).find? (·.key == r.key) with
  | none => exact absurd (List.find?_eq_none.mp hfind r hr) (by simp)
  | some first =>
    have hfirst := List.mem_of_find?_eq_some hfind
    obtain ⟨hunit, hfunction⟩ := eq_of_key hunits hfirst hr (by simpa using List.find?_some hfind)
    dsimp only
    rw [hunit, hfunction]
    exact List.mem_map_of_mem hq

theorem mem_testsOf {records : List FinderRecord} {key : String × Nat} {test : String}
    {distance : Nat} : (test, distance) ∈ Finder.testsOf records key ↔
      ∃ r ∈ records, r.key = key ∧ r.test = test ∧ r.distance = distance := by
  rw [Finder.testsOf, List.mem_map]
  simp only [List.mem_filter, beq_iff_eq, Prod.mk.injEq, and_assoc]

/-- A test that passes reaches a function of a unit at a distance, and one of the operators makes a
point of the identifier there. -/
def Schedules (operators : List Operator) (units : List ProgramUnit) (baseline : List BaselineTest)
    (identifier test : String) (distance : Nat) : Prop :=
  ∃ b ∈ baseline, b.test.name = test ∧ ∃ u f, (u, f, distance) ∈ b.testees ∧
    ∃ unit, units[u]? = some unit ∧ ∃ o ∈ operators, ∃ block instruction p,
      o.point? unit ⟨f, block, instruction⟩ = some p ∧ p.identifier = identifier

/-- The identifier, the test and the distance of a pair. -/
def scheduled (pair : MutationPoint × String × Nat) : String × String × Nat :=
  (pair.1.identifier, pair.2)

/-- The pairs of the points that are found. -/
theorem mem_pairs_findPoints (hunits : (units.map (·.identifier)).Nodup) {identifier test : String}
    {distance : Nat} : (identifier, test, distance) ∈
      ((findPoints operators units baseline).flatMap MutationPoint.pairs).map scheduled ↔
        Schedules operators units baseline identifier test distance := by
  rw [List.mem_map]
  constructor
  · rintro ⟨pair, hpair, heq⟩
    obtain ⟨p, hp, hpair⟩ := List.mem_flatMap.mp hpair
    obtain ⟨⟨t, d⟩, ht, rfl⟩ := List.mem_map.mp hpair
    obtain ⟨hidentifier, heq⟩ := Prod.mk.inj heq
    obtain ⟨rfl, rfl⟩ := Prod.mk.inj heq
    replace hidentifier : p.identifier = identifier := hidentifier
    subst hidentifier
    obtain ⟨r, hr, q, hq, rfl⟩ := (mem_findPoints hunits).mp hp
    obtain ⟨r', hr', hkey, rfl, rfl⟩ := mem_testsOf.mp ht
    -- the record of the test need not be that of the point, but both are of one function
    obtain ⟨hunit, hfunction⟩ := eq_of_key hunits hr' hr hkey
    obtain ⟨b, hb, u, ht, hu, hname⟩ := mem_recordsOf.mp hr'
    obtain ⟨o, ho, block, i, hpoint⟩ := ProgramUnit.mem_points.mp hq
    rw [hunit] at hu
    rw [hfunction] at ht
    exact ⟨b, hb, hname, u, r.function, ht, r.unit, hu, o, ho, block, i, q, hpoint, rfl⟩
  · rintro ⟨b, hb, rfl, u, f, ht, unit, hu, o, ho, block, i, p, hpoint, rfl⟩
    have hr : (⟨unit, f, b.test.name, distance⟩ : FinderRecord) ∈ recordsOf units baseline :=
      mem_recordsOf.mpr ⟨b, hb, u, ht, hu, rfl⟩
    have hp : p ∈ unit.points operators f := ProgramUnit.mem_points.mpr ⟨o, ho, block, i, hpoint⟩
    refine ⟨_, List.mem_flatMap.mpr ⟨_, (mem_findPoints hunits).mpr ⟨_, hr, p, hp, rfl⟩,
      List.mem_map_of_mem (mem_testsOf.mpr ⟨_, hr, rfl, rfl, rfl⟩)⟩, rfl⟩

/-! ### Identifiers -/

/-- A point that is found is one of a unit that may be mutated. -/
theorem exists_unit_of_mem_findPoints (hbaseline : e.baseline units tests = .ok baseline)
    {p : MutationPoint} (hp : p ∈ findPoints operators units baseline) :
    ∃ unit ∈ units, unit.role = .source ∧ p.IsOf unit := by
  obtain ⟨r, hr, q, hq, rfl⟩ := exists_record_of_mem_findPoints hp
  obtain ⟨b, hb, u, ht, hu, -⟩ := mem_recordsOf.mp hr
  obtain ⟨unit, hunit, hmutable⟩ := isMutable_of_baseline hbaseline b hb _ ht
  obtain rfl := Option.some.inj (hu.symm.trans hunit)
  obtain ⟨o, -, block, i, hpoint⟩ := ProgramUnit.mem_points.mp hq
  rw [isMutable, Bool.and_eq_true, beq_iff_eq] at hmutable
  exact ⟨r.unit, List.mem_of_getElem? hu, hmutable.1, MutationPoint.isOf_of_point? hpoint _⟩

/-- A point that is found has tests of the baseline. -/
theorem exists_test_of_mem_findPoints {p : MutationPoint}
    (hp : p ∈ findPoints operators units baseline) {t : String × Nat} (ht : t ∈ p.reachableTests) :
    ∃ b ∈ baseline, b.test.name = t.1 := by
  obtain ⟨r, -, q, -, rfl⟩ := exists_record_of_mem_findPoints hp
  obtain ⟨r', hr', -, htest, -⟩ := mem_testsOf.mp ht
  obtain ⟨b, hb, -, -, -, hname⟩ := mem_recordsOf.mp hr'
  exact ⟨b, hb, hname.trans htest⟩

/-- Points that units are prepared for differ in their identifiers. -/
theorem nodup_identifiers (hbaseline : e.baseline units tests = .ok baseline) {keys : List String}
    (hprepare : prepareUnits (findPoints operators units baseline) units = .ok (prepared, keys)) :
    ((findPoints operators units baseline).map (·.identifier)).Nodup := by
  refine nodup_map_of_filter (g := (·.moduleId)) (fun p _ q _ heq => ?_) fun p hp => ?_
  · exact (MutationPoint.identifierOf_injective heq).1
  · obtain ⟨unit, hunit, hrole, hof⟩ := exists_unit_of_mem_findPoints hbaseline hp
    obtain ⟨unit', -, h⟩ := exists_right_of_mem (prepareUnits_eq_ok hprepare) hunit
    rw [if_pos hrole] at h
    obtain ⟨more, h, -⟩ := h
    rw [hof.exists_function.1]
    exact ProgramUnit.nodup_identifiers_of_prepare h

/-- No pair is scheduled twice. -/
theorem nodup_pairs_findPoints (hunits : (units.map (·.identifier)).Nodup)
    (hbaseline : e.baseline units tests = .ok baseline) (htests : (tests.map (·.name)).Nodup)
    {keys : List String}
    (hprepare : prepareUnits (findPoints operators units baseline) units = .ok (prepared, keys)) :
    ((((findPoints operators units baseline).flatMap MutationPoint.pairs).map scheduled).map
      fun s => (s.1, s.2.1)).Nodup := by
  have hidentifiers := nodup_identifiers hbaseline hprepare
  rw [List.Nodup, List.pairwise_map] at hidentifiers
  have hrecords := nodup_recordsOf hunits (isBaseline_of_baseline hunits hbaseline) htests
  rw [List.Nodup, List.pairwise_map] at hrecords
  rw [List.map_map, List.map_flatMap, List.nodup_flatMap]
  constructor
  · intro p hp
    obtain ⟨r, hr, q, hq, rfl⟩ := (mem_findPoints hunits).mp hp
    rw [MutationPoint.pairs, List.map_map, List.Nodup, List.pairwise_map]
    show List.Pairwise _ (Finder.testsOf (recordsOf units baseline) r.key)
    rw [Finder.testsOf, List.pairwise_map]
    -- a test is recorded once for each function that it reaches
    have hfiltered := hrecords.filter (·.key == r.key)
    refine hfiltered.imp_of_mem fun {s s'} hs hs' hne heq => hne ?_
    have hkey := (List.mem_filter.mp hs).2
    have hkey' := (List.mem_filter.mp hs').2
    rw [beq_iff_eq] at hkey hkey'
    rw [hkey, hkey', show s.test = s'.test from (Prod.mk.inj heq).2]
  · refine hidentifiers.imp fun {p q} hne => ?_
    show List.Disjoint (p.pairs.map _) (q.pairs.map _)
    -- different points have different identifiers
    intro x hx hx'
    rw [MutationPoint.pairs, List.map_map, List.mem_map] at hx hx'
    obtain ⟨t, -, rfl⟩ := hx
    obtain ⟨t', -, heq⟩ := hx'
    exact hne (Prod.mk.inj heq).1.symm

/-! ### Reports -/

/-- The pairs of a report are those of the points that are found. -/
theorem MayRun.records_perm (h : e.MayRun units tests baseline prepared c results) :
    ((Report.of results).records.map fun r => (r.mutationPoint, r.test, r.distance)).Perm
      (((findPoints e.operators units baseline).flatMap MutationPoint.pairs).map scheduled) := by
  have hrecords := (Report.records_perm results).map fun r => (r.mutationPoint, r.test, r.distance)
  rw [List.map_map] at hrecords
  have hpairs := h.pairs_perm.map scheduled
  rw [List.map_map] at hpairs
  exact hrecords.trans hpairs

/-- A report has one record for each pair of a test that passes and a point in a function that the
test reaches, with the test's distance, and no other; and it counts the points of the pairs. -/
theorem MayRun.report_covers (hunits : (units.map (·.identifier)).Nodup)
    (h : e.MayRun units tests baseline prepared c results) :
    e.baseline units tests = .ok baseline ∧
    ((Report.of results).records.map fun r => (r.mutationPoint, r.test)).Nodup ∧
    (∀ identifier test distance,
      (∃ r ∈ (Report.of results).records,
        r.mutationPoint = identifier ∧ r.test = test ∧ r.distance = distance) ↔
      Schedules e.operators units baseline identifier test distance) ∧
    ∃ identifiers : List String, identifiers.Nodup ∧
      (∀ identifier, identifier ∈ identifiers ↔
        ∃ test distance, Schedules e.operators units baseline identifier test distance) ∧
      (Report.of results).summary.mutants = identifiers.length := by
  have hready := h.1
  have htests : (tests.map (·.name)).Nodup := by
    have haccepts := hready.accepts
    rw [validateTests] at haccepts
    split at haccepts
    · cases haccepts
    · rename_i hnone
      exact (Program.firstRepeated_eq_none.mp hnone).1
  have hperm := h.records_perm
  have hmem : ∀ identifier test distance,
      (∃ r ∈ (Report.of results).records,
        r.mutationPoint = identifier ∧ r.test = test ∧ r.distance = distance) ↔
      Schedules e.operators units baseline identifier test distance := by
    intro identifier test distance
    rw [← mem_pairs_findPoints hunits, ← hperm.mem_iff, List.mem_map]
    simp only [Prod.mk.injEq]
  refine ⟨hready.passes, ?_, hmem, ?_⟩
  · have hnodup := nodup_pairs_findPoints hunits hready.passes htests hready.prepares
    rw [← (hperm.map _).nodup_iff, List.map_map] at hnodup
    exact hnodup
  · refine ⟨_, nodup_sortedNames _, fun identifier => ?_, Report.mutants_eq results⟩
    rw [mem_sortedNames, List.mem_map]
    constructor
    · rintro ⟨r, hr, rfl⟩
      exact ⟨r.test, r.distance, (hmem _ _ _).mp ⟨r, hr, rfl, rfl, rfl⟩⟩
    · rintro ⟨test, distance, hscheduled⟩
      obtain ⟨r, hr, rfl, -, -⟩ := (hmem _ _ _).mpr hscheduled
      exact ⟨r, hr, rfl⟩

end Engine

/-- An engine that looks for additions and subtractions. -/
def doublingEngine : Engine := ⟨.default, ⟨1, 8⟩, [.mathAdd, .mathSub]⟩

def doublingTests : List Test := [.new "doubles" "check" []]

/-- What the engine finds. -/
def doublingResults : List MutationResult :=
  (doublingEngine.run doublingUnits doublingTests).toOption.getD []

theorem doubling_run : doublingEngine.run doublingUnits doublingTests = .ok doublingResults :=
  eq_ok_of_isOk (by decide +kernel) []

theorem doubling_report_covers : ∃ baseline,
    doublingEngine.run doublingUnits doublingTests = .ok doublingResults ∧
    doublingEngine.baseline doublingUnits doublingTests = .ok baseline ∧
    ((Report.of doublingResults).records.map fun r => (r.mutationPoint, r.test)).Nodup ∧
    Engine.Schedules [.mathAdd, .mathSub] doublingUnits baseline "m_0_0_1_math_sub_mutator"
      "doubles" 1 ∧
    ¬ Engine.Schedules [.mathAdd, .mathSub] doublingUnits baseline "n_0_0_1_math_sub_mutator"
      "doubles" 1 := by
  obtain ⟨baseline, prepared, c, hmay⟩ := Engine.mayRun_of_run doubling_run
  obtain ⟨hbaseline, hnodup, hmem, -⟩ := Engine.MayRun.report_covers (by decide) hmay
  have hresults : doublingResults.map (fun r => (r.point.identifier, r.test, r.distance))
      = [("m_0_0_0_math_add_mutator", "doubles", 1),
        ("m_0_0_1_math_sub_mutator", "doubles", 1)] := by
    decide +kernel
  have hscheduled : ∀ id test d,
      Engine.Schedules [.mathAdd, .mathSub] doublingUnits baseline id test d ↔
      (id, test, d) ∈ doublingResults.map fun r => (r.point.identifier, r.test, r.distance) := by
    intro id test d
    refine (hmem id test d).symm.trans ?_
    simp only [(Report.records_perm doublingResults).mem_iff, List.mem_map,
      exists_exists_and_eq_and, Prod.mk.injEq]
    rfl
  refine ⟨baseline, doubling_run, hbaseline, hnodup, ?_, ?_⟩
  · rw [hscheduled, hresults]
    decide
  · rw [hscheduled, hresults]
    decide

end MutationAnalysis
