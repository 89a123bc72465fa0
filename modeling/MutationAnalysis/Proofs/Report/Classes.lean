/-
How a summary counts mutants.

The table of verdicts has one entry for each mutant, with what all of its executions together say of
it.  So each count of a summary is that of the mutants of one verdict, no mutant is in two of them
or in none, and the survivors are the mutants that every execution passes.

* `Verdict.of_eq_survived_iff_passed`: the mutants that survive;
* `Verdicts.countP_ofResults`: the mutants of a verdict;
* `Summary.ofResults_classifies`: the counts of a summary, and its survivors.
-/
import MutationAnalysis.Proofs.Report.Summary
import MutationAnalysis.Proofs.Text.ByteOrder
import Mathlib.Data.Finset.Card

namespace MutationAnalysis

variable {results : List (String × Status)} {m : String}

/-- Only a test that passes says nothing against a mutant. -/
theorem Status.eq_passed_iff {s : Status} : s = .passed ↔ s ≠ .invalid ∧ ¬ s.kills = true := by
  cases s <;> decide

namespace Verdict

theorem of_eq_invalid : Verdict.of results m = .invalid ↔ (m, Status.invalid) ∈ results := by
  rw [Verdict.of]
  split_ifs <;> simp [*]

theorem of_eq_killed : Verdict.of results m = .killed ↔
    (m, Status.invalid) ∉ results ∧ HasKill results m := by
  rw [Verdict.of]
  split_ifs <;> simp [*]

theorem of_eq_survived_iff : Verdict.of results m = .survived ↔
    (m, Status.invalid) ∉ results ∧ ¬ HasKill results m := by
  rw [Verdict.of]
  split_ifs <;> simp [*]

/-- A mutant survives if each of its executions passes. -/
theorem of_eq_survived_iff_passed :
    Verdict.of results m = .survived ↔ ∀ s, (m, s) ∈ results → s = .passed := by
  rw [of_eq_survived_iff]
  constructor
  · rintro ⟨hinvalid, hkill⟩ s hs
    exact Status.eq_passed_iff.mpr ⟨fun heq => hinvalid (heq ▸ hs), fun hkills =>
      hkill ⟨s, hs, hkills⟩⟩
  · intro h
    exact ⟨fun hinvalid => Status.noConfusion (h _ hinvalid),
      fun ⟨s, hs, hkills⟩ => (Status.eq_passed_iff.mp (h s hs)).2 hkills⟩

end Verdict

/-- The mutants of executions. -/
def mutantsOf (results : List (String × Status)) : Finset String :=
  (results.map (·.1)).toFinset

theorem toFinset_sortedNames (names : List String) :
    (sortedNames names).toFinset = names.toFinset := by
  ext name
  rw [List.mem_toFinset, List.mem_toFinset, mem_sortedNames]

namespace Verdicts

/-- The verdicts of executions say once of each mutant what all its executions say. -/
theorem countP_ofResults (results : List (String × Status)) (v : Verdict) :
    (ofResults results).countP (·.2 == v)
      = ((mutantsOf results).filter fun m => Verdict.of results m = v).card := by
  rw [ofResults_eq, List.countP_map, List.countP_eq_length_filter,
    ← List.toFinset_card_of_nodup ((nodup_sortedNames _).filter _), List.toFinset_filter,
    toFinset_sortedNames, mutantsOf]
  simp only [Function.comp_apply, beq_iff_eq]

theorem length_ofResults (results : List (String × Status)) :
    (ofResults results).length = (mutantsOf results).card := by
  rw [ofResults_eq, List.length_map, ← List.toFinset_card_of_nodup (nodup_sortedNames _),
    toFinset_sortedNames, mutantsOf]

/-- Each entry of a table is of one of the verdicts. -/
theorem length_eq (verdicts : Verdicts) : verdicts.length = verdicts.countP (·.2 == .killed)
    + verdicts.countP (·.2 == .survived) + verdicts.countP (·.2 == .invalid) := by
  induction verdicts with
  | nil => rfl
  | cons entry rest ih =>
    obtain ⟨m, v⟩ := entry
    rw [List.length_cons, List.countP_cons, List.countP_cons, List.countP_cons, ih]
    cases v <;> simp <;> omega

end Verdicts

namespace Summary

theorem survived_ofVerdicts (verdicts : Verdicts) :
    (ofVerdicts verdicts).survived = verdicts.countP (·.2 == .survived) := by
  rw [List.countP_eq_length_filter]
  exact List.length_map _

/-- The survivors of executions are those of the mutants, in ascending order, that survive. -/
theorem survivors_ofResults (results : List (String × Status)) : (ofResults results).survivors
    = (sortedNames (results.map (·.1))).filter fun m => Verdict.of results m == .survived := by
  rw [ofResults, ofVerdicts, Verdicts.ofResults_eq, List.filter_map, List.map_map]
  exact List.map_id _

/-- Each mutant is counted once: as invalid if some execution of it is invalid, otherwise as killed
if some execution kills it, and otherwise as survived.  The survivors are, in the order of their
bytes, the mutants that every execution passes. -/
theorem ofResults_classifies (results : List (String × Status)) :
    (ofResults results).invalid
      = ((mutantsOf results).filter fun m => (m, Status.invalid) ∈ results).card ∧
    (ofResults results).killed
      = ((mutantsOf results).filter fun m => (m, Status.invalid) ∉ results ∧
        HasKill results m).card ∧
    (ofResults results).survived
      = ((mutantsOf results).filter fun m => (m, Status.invalid) ∉ results ∧
        ¬ HasKill results m).card ∧
    (ofResults results).mutants = (ofResults results).killed + (ofResults results).survived
      + (ofResults results).invalid ∧
    (ofResults results).mutants = (mutantsOf results).card ∧
    (ofResults results).survivors.Pairwise (fun m m' => m.toUTF8.toList < m'.toUTF8.toList) ∧
    ∀ m, m ∈ (ofResults results).survivors ↔
      m ∈ mutantsOf results ∧ ∀ s, (m, s) ∈ results → s = .passed := by
  have hcount := Verdicts.countP_ofResults results
  have hinvalid := hcount .invalid
  have hkilled := hcount .killed
  have hsurvived := (survived_ofVerdicts _).trans (hcount .survived)
  simp only [Verdict.of_eq_invalid] at hinvalid
  simp only [Verdict.of_eq_killed] at hkilled
  simp only [Verdict.of_eq_survived_iff] at hsurvived
  have hsum := Verdicts.length_eq (.ofResults results)
  rw [← survived_ofVerdicts] at hsum
  refine ⟨hinvalid, hkilled, hsurvived, hsum, Verdicts.length_ofResults results, ?_, fun m => ?_⟩
  · rw [survivors_ofResults]
    exact ((pairwise_sortedNames _).filter _).imp Text.utf8_lt_utf8.mpr
  · rw [survivors_ofResults, List.mem_filter, mem_sortedNames, beq_iff_eq,
      Verdict.of_eq_survived_iff_passed, mutantsOf, List.mem_toFinset]

-- a test that passes later takes back neither a kill nor an invalid execution
example : ofResults [("b", .passed), ("c", .invalid), ("a", .failed), ("c", .crashed),
      ("a", .passed),
    ("c", .passed), ("b", .passed)] = ⟨3, 1, 1, 1, ["b"]⟩ := by decide

end Summary

end MutationAnalysis
