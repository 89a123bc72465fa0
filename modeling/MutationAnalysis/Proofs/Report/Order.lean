/-
The order of records.

Records stand in the order of their mutation points and then of their tests, which are compared as
texts and hence by their bytes.  If no two results are of the same test of the same point, there is
only one such order of them, so the report does not say in which order the results came, nor which
worker was done first.  How the results are counted does not depend on their order in any case.

* `ResultRecord.notAfter_iff`: when a record comes no later than another;
* `Report.pairwise_records`, `Report.records_eq`: the order of records, and that there is only one;
* `WorkerContext.MayEnd.perm`: what the order of the workers decides;
* `Report.canonical`: reports of the same results.
-/
import MutationAnalysis.Proofs.Campaign.Interleaving
import MutationAnalysis.Proofs.Report.Summary
import MutationAnalysis.Proofs.Text.ByteOrder
import Mathlib.Data.Prod.Lex
import Mathlib.Data.String.Basic

namespace MutationAnalysis

variable {results results' : List MutationResult}

namespace ResultRecord

/-- What records are sorted by: the mutation point and the test. -/
def place (r : ResultRecord) : String ×ₗ String := toLex (r.mutationPoint, r.test)

/-- A record comes before another if its mutation point has the smaller bytes or, of the same
mutation point, its test has. -/
def Before (a b : ResultRecord) : Prop :=
  a.mutationPoint.toUTF8.toList < b.mutationPoint.toUTF8.toList ∨
    (a.mutationPoint = b.mutationPoint ∧ a.test.toUTF8.toList < b.test.toUTF8.toList)

theorem notAfter_iff {a b : ResultRecord} : a.notAfter b = true ↔ a.place ≤ b.place := by
  rw [place, place, Prod.Lex.toLex_le_toLex, notAfter, Bool.or_eq_true, Bool.and_eq_true,
    decide_eq_true_iff, beq_iff_eq, Bool.not_eq_true', decide_eq_false_iff_not, not_lt]

theorem before_iff {a b : ResultRecord} : a.Before b ↔ a.place < b.place := by
  rw [place, place, Prod.Lex.toLex_lt_toLex, Before, Text.utf8_lt_utf8, Text.utf8_lt_utf8]

end ResultRecord

open ResultRecord

namespace Report

/-- No two results are of the same test of the same mutation point. -/
def IsDistinct (results : List MutationResult) : Prop :=
  (results.map fun r => (r.point.identifier, r.test)).Nodup

instance (results : List MutationResult) : Decidable (IsDistinct results) :=
  inferInstanceAs (Decidable (List.Nodup _))

theorem pairwise_notAfter (results : List MutationResult) :
    (Report.of results).records.Pairwise fun a b => a.place ≤ b.place := by
  refine (List.pairwise_mergeSort (fun a b c hab hbc => ?_) (fun a b => ?_) _).imp notAfter_iff.mp
  · exact notAfter_iff.mpr ((notAfter_iff.mp hab).trans (notAfter_iff.mp hbc))
  · rw [Bool.or_eq_true, notAfter_iff, notAfter_iff]
    exact le_total _ _

/-- The records of distinct results ascend. -/
theorem pairwise_records (h : IsDistinct results) :
    (Report.of results).records.Pairwise ResultRecord.Before := by
  have hplaces : ((Report.of results).records.map ResultRecord.place).Nodup := by
    rw [((records_perm results).map _).nodup_iff, List.map_map]
    exact h
  refine (pairwise_notAfter results).imp₂ (fun a b hle hne => ?_) (List.pairwise_map.mp hplaces)
  exact before_iff.mpr (lt_of_le_of_ne hle hne)

/-- The records of results are those of the same results in another order. -/
theorem records_perm_records (hperm : results'.Perm results) :
    (Report.of results').records.Perm (Report.of results).records :=
  (records_perm results').trans ((hperm.map _).trans (records_perm results).symm)

/-- Distinct results have the same records in whatever order they come. -/
theorem records_eq (hperm : results'.Perm results) (h : IsDistinct results) :
    (Report.of results').records = (Report.of results).records := by
  have h' : IsDistinct results' := (hperm.map _).nodup_iff.mpr h
  refine List.Perm.eq_of_pairwise (fun a b _ _ hab hba => ?_) (pairwise_records h')
    (pairwise_records h) (records_perm_records hperm)
  exact absurd (before_iff.mp hba) (before_iff.mp hab).not_gt

/-- Results have the same summary in whatever order they come. -/
theorem summary_eq_of_perm (hperm : results'.Perm results) :
    (Report.of results').summary = (Report.of results).summary :=
  Summary.ofResults_perm ((records_perm_records hperm).map _)

/-- Distinct results have the same report in whatever order they come. -/
theorem eq_of_perm (hperm : results'.Perm results) (h : IsDistinct results) :
    Report.of results' = Report.of results := by
  rw [Report.of, Report.of, Report.mk.injEq]
  exact ⟨records_eq hperm h, summary_eq_of_perm hperm⟩

end Report

/-- The order in which workers are done decides where results stand, and nothing else. -/
theorem WorkerContext.MayEnd.perm {c : WorkerContext} {progress progress' : Progress}
    {workers : Nat} {points : List MutationPoint} {one other : List MutationResult × Progress}
    (h : c.MayEnd progress workers points one) (h' : c.MayEnd progress' workers points other) :
    other.1.Perm one.1 := by
  obtain ⟨order, hperm, rfl⟩ := h.exists_order
  obtain ⟨order', hperm', rfl⟩ := h'.exists_order
  exact (hperm'.trans hperm.symm).flatMap_right _

/-- A report has the records of its results, each once, and counts them whatever their order is.  If
they are distinct, its records ascend and the whole report is that of any other order of them.  So
it does not depend on which worker is done first. -/
theorem Report.canonical :
    (∀ results results' : List MutationResult, results'.Perm results →
      (Report.of results).records.Perm (results.map ResultRecord.of) ∧
      (Report.of results').summary = (Report.of results).summary ∧
      (IsDistinct results → (Report.of results).records.Pairwise ResultRecord.Before ∧
        Report.of results' = Report.of results)) ∧
    ∀ (c : WorkerContext) (progress progress' : Progress) (workers : Nat)
      (points : List MutationPoint)
      (one other : List MutationResult × Progress), c.MayEnd progress workers points one →
      c.MayEnd progress' workers points other →
      (Report.of other.1).summary = (Report.of one.1).summary ∧
      (IsDistinct one.1 → Report.of other.1 = Report.of one.1) := by
  constructor
  · intro results results' hperm
    exact ⟨records_perm results, summary_eq_of_perm hperm, fun h =>
      ⟨pairwise_records h, eq_of_perm hperm h⟩⟩
  · intro c progress progress' workers points one other hone hother
    exact ⟨summary_eq_of_perm (hone.perm hother), eq_of_perm (hone.perm hother)⟩

/-- Points of two functions that two tests reach. -/
def mixedPoints : List MutationPoint :=
  [⟨"m", "add", ⟨0, 0, 0⟩, .mathAdd, "", none, [("t2", 1), ("t1", 1)]⟩,
    ⟨"m", "sum", ⟨1, 0, 0⟩, .scalarValue, "", none, [("t2", 1)]⟩]

/-- Results of the points, of which a report begins with the last one. -/
def mixedResults : List MutationResult :=
  mixedPoints.reverse.flatMap fun p => p.pairs.map fun (p, test, distance) =>
    ⟨p, test, distance, ⟨if test = "t1" then .failed else .passed, ⟨12⟩, ""⟩⟩

/-- The results in two orders, and two workers of which either is done first. -/
theorem mixedResults_canonical :
    mixedResults.map (fun r => (r.point.identifier, r.test)) =
      [("m_1_0_0_scalar_value_mutator", "t2"), ("m_0_0_0_math_add_mutator", "t2"),
        ("m_0_0_0_math_add_mutator", "t1")] ∧
    Report.IsDistinct mixedResults ∧ Report.of mixedResults.reverse = Report.of mixedResults ∧
    (Report.of mixedResults).records.Pairwise ResultRecord.Before ∧
    ∃ one other, WorkerContext.bare.MayEnd (.new 2) 2 mixedPoints one ∧
      WorkerContext.bare.MayEnd (.new 2) 2 mixedPoints other ∧ one.1 ≠ other.1 ∧
      Report.of other.1 = Report.of one.1 := by
  have hdistinct : Report.IsDistinct mixedResults := by decide +kernel
  obtain ⟨-, -, hreport⟩ :=
    Report.canonical.1 mixedResults mixedResults.reverse (List.reverse_perm _)
  obtain ⟨hbefore, heq⟩ := hreport hdistinct
  let one := WorkerContext.bare.executeSlices (.new 2) (WorkerContext.slices 2 mixedPoints)
  let other := WorkerContext.bare.executeSlices (.new 2)
    (WorkerContext.slices 2 mixedPoints).reverse
  have hone : WorkerContext.bare.MayEnd (.new 2) 2 mixedPoints one :=
    WorkerContext.mayEnd_iff_maySchedule.mpr ⟨_, .refl _, rfl⟩
  have hother : WorkerContext.bare.MayEnd (.new 2) 2 mixedPoints other :=
    WorkerContext.mayEnd_iff_maySchedule.mpr ⟨_, List.reverse_perm _, rfl⟩
  have hworkers := Report.canonical.2 _ _ _ _ _ one other hone hother
  exact ⟨by decide +kernel, hdistinct, heq, hbefore, one, other, hone, hother, by decide +kernel,
    hworkers.2 (by decide +kernel)⟩

end MutationAnalysis
