/-
What is in a report.

The records are the results in another order, and the verdicts have one
entry for each mutant of them.

* `Report.records_perm`: no result is lost, and none is added;
* `Verdicts.mutants_ofResults`: the mutants of the verdicts;
* `Report.mutants_eq`: how many mutants a report counts.
-/
import MutationAnalysis.Proofs.Program.Names
import MutationAnalysis.Report.Basic

namespace MutationAnalysis

/-- The records of results are theirs, each once. -/
theorem Report.records_perm (results : List MutationResult) :
    (Report.of results).records.Perm (results.map ResultRecord.of) :=
  List.mergeSort_perm _ _

namespace Verdicts

/-- The mutants that have a verdict, in ascending order. -/
def mutants (verdicts : Verdicts) : List String := verdicts.map (·.1)

theorem mutants_record (mutant : String) (s : Status) (verdicts : Verdicts) :
    mutants (record mutant s verdicts) = insertName mutant (mutants verdicts) := by
  induction verdicts with
  | nil => rfl
  | cons entry rest ih =>
    obtain ⟨m, v⟩ := entry
    have hmutants : mutants ((m, v) :: rest) = m :: mutants rest := rfl
    rw [record, hmutants, insertName]
    split
    · rfl
    · split
      · rfl
      · exact congrArg (m :: ·) ih

/-- Each mutant of the executions has one verdict. -/
theorem mutants_ofResults (results : List (String × Status)) :
    mutants (ofResults results) = sortedNames (results.map (·.1)) := by
  have hfold : ∀ (results : List (String × Status)) (verdicts : Verdicts),
      mutants (results.foldl (fun verdicts r => record r.1 r.2 verdicts) verdicts)
        = (results.map (·.1)).foldl (fun acc name => insertName name acc) (mutants verdicts) := by
    intro results
    induction results with
    | nil => exact fun verdicts => rfl
    | cons r rest ih =>
      intro verdicts
      rw [List.foldl_cons, ih, mutants_record, List.map_cons, List.foldl_cons]
  exact hfold results []

end Verdicts

/-- A report counts each mutant of its records once. -/
theorem Report.mutants_eq (results : List MutationResult) : (Report.of results).summary.mutants
    = (sortedNames ((Report.of results).records.map (·.mutationPoint))).length := by
  have hmutants := Verdicts.mutants_ofResults
    ((Report.of results).records.map fun r => (r.mutationPoint, r.status))
  have hlength := congrArg List.length hmutants
  rw [List.map_map, Verdicts.mutants, List.length_map] at hlength
  exact hlength

end MutationAnalysis
