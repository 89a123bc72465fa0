/-
Which selections of operators can be prepared.

A job lists operators by their names, and nothing keeps it from naming one twice.  The finder then
makes every point of that operator twice, and preparation adds two mutants under one identifier,
which validation rejects.  Apart from that any selection can be prepared, whatever tests reach:
points that are found can be made, and the names that are added for them are as many as they are.

* `ProgramUnit.prepare_of_nodup`, `ProgramUnit.prepare_of_not_nodup`: the points of a unit can be
  prepared if they differ in their identifiers, and only then;
* `Job.count_operatorList`: the names of a job and its operators;
* `Job.prepare_found`: what preparing a unit for the points of a job's operators comes to.
-/
import MutationAnalysis.Job
import MutationAnalysis.Proofs.Campaign.Parallel
import MutationAnalysis.Proofs.Mutation.Repetition
import MutationAnalysis.Proofs.Unit.Exactness
import Mathlib.Data.List.Count

namespace MutationAnalysis

/-! ### Points of a unit -/

namespace ProgramUnit

variable {unit : ProgramUnit} {points : List MutationPoint}

/-- The groups of points of a unit can be prepared; the names that are added are the preserved ones
of their keys, and their identifiers. -/
theorem exists_prepareGroups_of_isOf (hvalid : unit.program.validate = .ok ())
    (hpoints : ∀ q ∈ unit.own points, q.IsOf unit) : ∃ program keys added,
      unit.program.prepareGroups unit.identifier [] (PointGroup.ofPoints (unit.own points))
        = ⟨program, .ok keys⟩ ∧
      unit.program.IsPrepared unit.identifier (unit.own points) program ∧
      program.names = unit.program.names ++ added ∧
      added.Perm (((unit.own points).map (·.key)).eraseDups.map SymbolName.preserved
        ++ (unit.own points).map (·.identifier)) := by
  have hlt : ∀ q ∈ unit.own points, q.address.function < unit.program.functions.length := by
    intro q hq
    obtain ⟨-, f, hf, -⟩ := (hpoints q hq).exists_function
    exact (List.getElem?_eq_some_iff.mp hf).1
  obtain ⟨program, keys, hgroups⟩ : ∃ program keys, unit.program.prepareGroups unit.identifier []
      (PointGroup.ofPoints (unit.own points)) = ⟨program, .ok keys⟩ :=
    Program.exists_prepareGroups .nil (PointGroup.collects_ofPoints (unit.own points)).nodup
      (canPrepare_of_isOf hvalid hpoints) []
  obtain ⟨hprepared, hkeys⟩ := Program.isPrepared_of_prepareGroups hlt hgroups
  obtain rfl := keysOf_eq (Program.isValid_of_validate hvalid) hpoints hkeys
  obtain ⟨-, added, hnames, hadded⟩ := Program.names_prepareGroups_ofPoints hgroups
  exact ⟨program, _, added, hgroups, hprepared, hnames, hadded⟩

variable (hvalid : unit.program.validate = .ok ()) (hpoints : ∀ q ∈ unit.own points, q.IsOf unit)
  (hfresh : ∀ q ∈ unit.own points, ¬ unit.program.Mentions (SymbolName.preserved q.key) ∧
    ¬ unit.program.Mentions q.identifier)

include hvalid hpoints hfresh

/-- Points of a unit that differ in their identifiers can be prepared. -/
theorem prepare_of_nodup (hdistinct : ((unit.own points).map (·.identifier)).Nodup) :
    ∃ keys, (unit.prepare points).2 = .ok keys := by
  obtain ⟨program, keys, added, hgroups, hprepared, hnames, hadded⟩ :=
    exists_prepareGroups_of_isOf hvalid hpoints
  obtain ⟨hnodup, hnew⟩ := nodup_names_append hvalid hdistinct hfresh hadded
  rw [← hnames] at hnodup
  have hresult := hprepared.validate hvalid (fun q hq => makes_of_isOf (hpoints q hq)) hnames hnodup
    fun i hi name hname hmem => hnew name hmem (.inr ⟨i, hi, hname⟩)
  exact ⟨keys, by rw [prepare_snd hgroups, hresult]⟩

/-- Points of a unit of which two have one identifier cannot, and one that is not the only one of
its identifier is to blame. -/
theorem prepare_of_not_nodup (hrepeated : ¬ ((unit.own points).map (·.identifier)).Nodup) :
    ∃ q ∈ unit.own points, 1 < ((unit.own points).map (·.identifier)).count q.identifier ∧
      (unit.prepare points).2 = .error (.program (.duplicateFunction q.identifier)) := by
  obtain ⟨program, keys, added, hgroups, -, hnames, hadded⟩ :=
    exists_prepareGroups_of_isOf hvalid hpoints
  have hnodup : ¬ program.names.Nodup := by
    intro hnodup
    rw [hnames] at hnodup
    exact hrepeated (hadded.nodup_iff.mp hnodup.of_append_right).of_append_right
  obtain ⟨name, hcount, hfault⟩ := Program.validate_of_not_nodup hnodup
  rw [hnames, List.count_append, hadded.count_eq, List.count_append] at hcount
  have hold : unit.program.names.count name ≤ 1 :=
    List.nodup_iff_count_le_one.mp (Program.validate_eq_ok.mp hvalid).1 name
  have hpreserved :
      (((unit.own points).map (·.key)).eraseDups.map SymbolName.preserved).count name ≤ 1 :=
    List.nodup_iff_count_le_one.mp ((nodup_eraseDups _).map SymbolName.preserved_injective) name
  have hmentions : name ∈ unit.program.names → unit.program.Mentions name := fun hname =>
    .inl (List.mem_map.mp hname)
  by_cases hname : name ∈ (unit.own points).map (·.identifier)
  · -- an identifier is neither a name of the program nor a preserved one
    obtain ⟨q, hq, rfl⟩ := List.mem_map.mp hname
    have hnot : q.identifier ∉ unit.program.names := fun hmem => (hfresh q hq).2 (hmentions hmem)
    have hother : q.identifier
        ∉ ((unit.own points).map (·.key)).eraseDups.map SymbolName.preserved := fun hmem => by
      obtain ⟨key, -, heq⟩ := List.mem_map.mp hmem
      exact q.identifier_ne_preserved key heq.symm
    rw [List.count_eq_zero.mpr hnot, List.count_eq_zero.mpr hother, Nat.zero_add,
      Nat.zero_add] at hcount
    exact ⟨q, hq, hcount, by rw [prepare_snd hgroups, hfault]⟩
  · -- names of the program stand once, so do preserved names, and no name is both
    rw [List.count_eq_zero.mpr hname] at hcount
    have hmem : name ∈ ((unit.own points).map (·.key)).eraseDups.map SymbolName.preserved :=
      List.count_pos_iff.mp (by omega)
    obtain ⟨key, hkey, rfl⟩ := List.mem_map.mp hmem
    obtain ⟨q, hq, rfl⟩ := List.mem_map.mp (List.mem_eraseDups.mp hkey)
    exact absurd (hmentions (List.count_pos_iff.mp (by omega))) (hfresh q hq).1

end ProgramUnit

/-! ### Operators of a job -/

namespace Operator

theorem id_of_ofId? {name : String} {o : Operator} (h : ofId? name = some o) : o.id = name := by
  simpa using List.find?_some h

theorem id_injective : Function.Injective id := fun _ _ h =>
  eq_of_id_suffix (h ▸ List.suffix_refl _)

end Operator

namespace Job

variable {j : Job} {operators : List Operator}

/-- An operator of a job is looked for more than once only if the job names it more than once. -/
theorem count_operatorList (h : j.operatorList = .ok operators) (o : Operator) :
    operators.count o ≤ 1 ↔ j.operators.count o.id ≤ 1 := by
  rw [operatorList] at h
  split at h
  · rename_i hempty
    obtain rfl := Except.ok.inj h
    rw [List.isEmpty_iff] at hempty
    rw [hempty, List.count_nil]
    exact iff_of_true (by cases o <;> decide) (Nat.zero_le 1)
  · have hnames : j.operators = operators.map Operator.id := by
      have hall := mapM_eq_ok.mp h
      clear h
      generalize j.operators = names at hall
      induction hall with
      | nil => rfl
      | @cons name o _ _ ho _ ih =>
        split at ho
        · rename_i o' hfound
          obtain rfl := Except.ok.inj ho
          rw [List.map_cons, ← ih, Operator.id_of_ofId? hfound]
        · cases ho
    rw [hnames, List.count_map_of_injective _ _ Operator.id_injective]

/-- Where a valid unit defines and calls nothing under a name that is added, it can be
prepared for the points that are found with the operators of a job after any records, unless
the job names the operator of one of them twice; then preparation fails since a mutant of such
an operator is added twice. -/
theorem prepare_found (hoperators : j.operatorList = .ok operators) {unit : ProgramUnit}
    (hvalid : unit.program.validate = .ok ()) {records : List FinderRecord}
    (hunits : ∀ r ∈ records, r.unit.identifier = unit.identifier → r.unit.program = unit.program)
    (hfresh : ∀ q ∈ unit.own (Finder.find operators records),
      ¬ unit.program.Mentions (SymbolName.preserved q.key) ∧ ¬ unit.program.Mentions q.identifier) :
    ((∀ q ∈ unit.own (Finder.find operators records), j.operators.count q.operator.id ≤ 1) ∧
      ∃ keys, (unit.prepare (Finder.find operators records)).2 = .ok keys) ∨
    ∃ q ∈ unit.own (Finder.find operators records), 1 < j.operators.count q.operator.id ∧
      (unit.prepare (Finder.find operators records)).2
        = .error (.program (.duplicateFunction q.identifier)) := by
  have hown : ∀ q ∈ unit.own (Finder.find operators records), q.IsOf unit :=
    fun q hq => Finder.isOf_of_mem_own hunits hq
  have hcount : ∀ q ∈ unit.own (Finder.find operators records),
      (((unit.own (Finder.find operators records)).map (·.identifier)).count q.identifier ≤ 1
        ↔ j.operators.count q.operator.id ≤ 1) := fun q hq => by
    rw [Finder.count_identifier_own hunits hq, count_operatorList hoperators]
  by_cases hnodup : ((unit.own (Finder.find operators records)).map (·.identifier)).Nodup
  · refine .inl ⟨fun q hq => (hcount q hq).mp (List.nodup_iff_count_le_one.mp hnodup _), ?_⟩
    exact ProgramUnit.prepare_of_nodup hvalid hown hfresh hnodup
  · obtain ⟨q, hq, hrepeated, hfault⟩ := ProgramUnit.prepare_of_not_nodup hvalid hown hfresh hnodup
    exact .inr ⟨q, hq, Nat.lt_of_not_le fun hle => Nat.not_le.mpr hrepeated ((hcount q hq).mpr hle),
      hfault⟩

end Job

/-! ### Two selections -/

def doublingUnit : ProgramUnit := ⟨doubling, .source, "double.json", "m"⟩

/-- A job of the doubling program and its test, with the given operators. -/
def doublingJob (operators : List String) : Job :=
  ⟨[⟨"double.json", .source, doubling⟩, ⟨"test.json", .test, doublingTest⟩],
    [⟨"doubles", "check", []⟩], .default, operators⟩

/-- Two tests that reach the function, and a record of a function that is not there. -/
def doublingRecords : List FinderRecord :=
  [⟨doublingUnit, 0, "doubles", 1⟩, ⟨doublingUnit, 7, "doubles", 1⟩, ⟨doublingUnit, 0, "again", 2⟩]

/-- Two operators that the job names once each. -/
theorem doublingJob_prepares : ∃ keys,
    (doublingUnit.prepare (Finder.find [.mathSub, .mathAdd] doublingRecords)).2 = .ok keys := by
  have hoperators : (doublingJob ["math_sub_mutator", "math_add_mutator"]).operatorList
      = .ok [.mathSub, .mathAdd] := by decide
  have hvalid : doublingUnit.program.validate = .ok () := by decide
  have hunits : ∀ r ∈ doublingRecords, r.unit.identifier = doublingUnit.identifier →
      r.unit.program = doublingUnit.program := by decide
  rcases Job.prepare_found hoperators hvalid hunits (by decide)
    with ⟨-, hkeys⟩ | ⟨q, -, hrepeated, -⟩
  · exact hkeys
  · have hnames : ∀ o : Operator,
        (doublingJob ["math_sub_mutator", "math_add_mutator"]).operators.count o.id ≤ 1 := by
      intro o
      cases o <;> decide
    exact absurd hrepeated (Nat.not_lt.mpr (hnames q.operator))

/-- One operator that the job names twice. -/
theorem repeated_operator_not_prepared :
    (doublingJob ["math_add_mutator", "math_add_mutator"]).operatorList = .ok [.mathAdd, .mathAdd] ∧
      doublingUnit.program.validate = .ok () ∧
      (∀ q ∈ Finder.find [.mathAdd, .mathAdd] doublingRecords,
        ¬ doublingUnit.program.Mentions (SymbolName.preserved q.key) ∧
          ¬ doublingUnit.program.Mentions q.identifier) ∧
      (doublingUnit.prepare (Finder.find [.mathAdd, .mathAdd] doublingRecords)).2
        = .error (.program (.duplicateFunction "m_0_0_0_math_add_mutator")) := by
  decide

end MutationAnalysis
