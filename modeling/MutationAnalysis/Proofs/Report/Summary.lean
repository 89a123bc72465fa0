/-
What a summary depends on.

The verdicts of executions are a table of the mutants that were executed, in ascending order,
each with what its own executions say of it (`Verdicts.ofResults_eq`).  So neither the order of
the executions matters nor how often a mutant is killed, and two lists of executions have the
same summary as soon as they have the same mutants, the same invalid ones and the same ones with
a kill (`Summary.ofResults_congr`).
-/
import MutationAnalysis.Proofs.Report.Basic
import Mathlib.Data.List.Induction

namespace MutationAnalysis

/-- Some execution of the mutant kills it. -/
def HasKill (results : List (String × Status)) (mutant : String) : Prop :=
  ∃ s, (mutant, s) ∈ results ∧ s.kills = true

instance (results : List (String × Status)) (mutant : String) : Decidable
    (HasKill results mutant) :=
  decidable_of_iff (∃ r ∈ results, r.1 = mutant ∧ r.2.kills = true)
    ⟨fun ⟨r, hr, hm, hs⟩ => ⟨r.2, hm ▸ hr, hs⟩, fun ⟨_, hs, hkills⟩ => ⟨_, hs, rfl, hkills⟩⟩

/-- What all executions together say of a mutant. -/
def Verdict.of (results : List (String × Status)) (mutant : String) : Verdict :=
  if (mutant, Status.invalid) ∈ results then .invalid
  else if HasKill results mutant then .killed
  else .survived

variable {results results' : List (String × Status)}

theorem hasKill_concat {m k : String} {s : Status} :
    HasKill (results ++ [(m, s)]) k ↔ HasKill results k ∨ (k = m ∧ s.kills = true) := by
  constructor
  · rintro ⟨s', hs', hkills⟩
    rcases List.mem_append.mp hs' with hs' | hs'
    · exact .inl ⟨s', hs', hkills⟩
    · obtain ⟨rfl, rfl⟩ := Prod.mk.inj (List.mem_singleton.mp hs')
      exact .inr ⟨rfl, hkills⟩
  · rintro (⟨s', hs', hkills⟩ | ⟨rfl, hkills⟩)
    · exact ⟨s', List.mem_append_left _ hs', hkills⟩
    · exact ⟨s, List.mem_append_right _ List.mem_cons_self, hkills⟩

/-- One more execution changes the verdict of its mutant only. -/
theorem Verdict.of_concat (m k : String) (s : Status) :
    Verdict.of (results ++ [(m, s)]) k
      = if k = m then (Verdict.of results k).after s else Verdict.of results k := by
  have hinvalid : (k, Status.invalid) ∈ results ++ [(m, s)]
      ↔ (k, Status.invalid) ∈ results ∨ (k = m ∧ s = .invalid) := by
    rw [List.mem_append, List.mem_singleton, Prod.mk.injEq, @eq_comm _ Status.invalid]
  by_cases hk : k = m
  · subst hk
    rw [if_pos rfl, Verdict.of, Verdict.of, Verdict.after]
    simp only [hinvalid, hasKill_concat, true_and]
    by_cases hmem : (k, Status.invalid) ∈ results
    · simp [hmem]
    · by_cases hs : s = .invalid
      · simp [hs]
      · by_cases hkill : HasKill results k <;> simp [hmem, hs, hkill]
  · rw [if_neg hk, Verdict.of, Verdict.of]
    simp only [hinvalid, hasKill_concat, hk, false_and, or_false]

/-- A mutant that was never executed would survive. -/
theorem Verdict.of_eq_survived {m : String} (h : m ∉ results.map (·.1)) :
    Verdict.of results m = .survived := by
  have hnone : ∀ s, (m, s) ∉ results := fun s hs => h (List.mem_map_of_mem hs)
  rw [Verdict.of, if_neg (hnone _), if_neg fun ⟨s, hs, _⟩ => hnone s hs]

/-- One more execution in a table of verdicts. -/
theorem Verdicts.record_map {keys : List String} (hkeys : keys.Pairwise (· < ·))
    (verdict : String → Verdict) (m : String) (s : Status)
    (hnew : m ∉ keys → verdict m = .survived) :
    record m s (keys.map fun k => (k, verdict k))
      = (insertName m keys).map fun k => (k, if k = m then (verdict k).after s else verdict k) := by
  -- a table of keys that are all different from the mutant's is left as it is
  have hkeep : ∀ ks : List String, m ∉ ks →
      (ks.map fun k => (k, if k = m then (verdict k).after s else verdict k))
        = ks.map fun k => (k, verdict k) := by
    intro ks hm
    refine List.map_congr_left fun k hk => ?_
    rw [if_neg fun heq : k = m => hm (heq ▸ hk)]
  induction keys with
  | nil =>
    rw [insertName, List.map_singleton, if_pos rfl, hnew List.not_mem_nil]
    rfl
  | cons k rest ih =>
    rw [List.pairwise_cons] at hkeys
    rw [List.map_cons, record, insertName]
    by_cases hlt : m < k
    · -- the keys ascend, so the mutant is none of them
      have hm : m ∉ k :: rest := by
        intro hm
        rcases List.mem_cons.mp hm with rfl | hm
        · exact String.lt_irrefl _ hlt
        · exact String.lt_irrefl _ (String.lt_trans hlt (hkeys.1 m hm))
      rw [if_pos hlt, if_pos hlt, List.map_cons, hkeep _ hm, if_pos rfl, hnew hm, List.map_cons]
    · rw [if_neg hlt, if_neg hlt]
      by_cases heq : m = k
      · subst heq
        have hm : m ∉ rest := fun hm => String.lt_irrefl _ (hkeys.1 m hm)
        rw [if_pos rfl, if_pos rfl, List.map_cons, hkeep _ hm, if_pos rfl]
      · rw [if_neg heq, if_neg heq, List.map_cons, if_neg (Ne.symm heq)]
        refine congrArg _ (ih hkeys.2 fun hm => hnew fun hmem => ?_)
        rcases List.mem_cons.mp hmem with rfl | hmem
        · exact heq rfl
        · exact hm hmem

theorem sortedNames_concat (names : List String) (name : String) :
    sortedNames (names ++ [name]) = insertName name (sortedNames names) := by
  rw [sortedNames, List.foldl_append]
  rfl

/-- The verdicts are those of the mutants that were executed, in ascending order. -/
theorem Verdicts.ofResults_eq (results : List (String × Status)) :
    ofResults results
      = (sortedNames (results.map (·.1))).map fun m => (m, Verdict.of results m) := by
  -- induction on the executions so far, of which the last one is recorded last
  induction results using List.reverseRecOn with
  | nil => rfl
  | append_singleton results r ih =>
    obtain ⟨m, s⟩ := r
    have hrecord : ofResults (results ++ [(m, s)]) = record m s (ofResults results) := by
      rw [ofResults, List.foldl_append]
      rfl
    rw [hrecord, ih, record_map (pairwise_sortedNames _) _ m s fun hm =>
      Verdict.of_eq_survived fun hmem => hm (mem_sortedNames.mpr hmem)]
    rw [List.map_append, List.map_singleton, sortedNames_concat]
    refine List.map_congr_left fun k _ => ?_
    rw [Verdict.of_concat]

/-- Sorted names depend on which names there are only. -/
theorem sortedNames_congr {names names' : List String} (h : ∀ name, name ∈ names ↔ name ∈ names') :
    sortedNames names = sortedNames names' := by
  refine List.Perm.eq_of_pairwise
    (fun a b _ _ hab hba => absurd (String.lt_trans hab hba) (String.lt_irrefl a))
    (pairwise_sortedNames names) (pairwise_sortedNames names') ?_
  refine (List.perm_ext_iff_of_nodup (nodup_sortedNames names) (nodup_sortedNames names')).mpr
    fun name => ?_
  rw [mem_sortedNames, mem_sortedNames, h]

/-- Summaries of executions agree if the executions have the same mutants, the same invalid ones
and the same ones with a kill. -/
theorem Summary.ofResults_congr
    (hmutants : ∀ m, m ∈ results.map (·.1) ↔ m ∈ results'.map (·.1))
    (hinvalid : ∀ m, (m, Status.invalid) ∈ results ↔ (m, Status.invalid) ∈ results')
    (hkill : ∀ m, HasKill results m ↔ HasKill results' m) :
    Summary.ofResults results = Summary.ofResults results' := by
  have hverdict : ∀ m, Verdict.of results m = Verdict.of results' m := by
    intro m
    rw [Verdict.of, Verdict.of]
    simp only [hinvalid m, hkill m]
  rw [ofResults, ofResults, Verdicts.ofResults_eq, Verdicts.ofResults_eq,
    sortedNames_congr hmutants]
  simp only [hverdict]

/-- The order of the executions does not matter. -/
theorem Summary.ofResults_perm (h : results.Perm results') :
    Summary.ofResults results = Summary.ofResults results' :=
  ofResults_congr (fun _ => (h.map _).mem_iff) (fun _ => h.mem_iff) fun _ =>
    exists_congr fun _ => and_congr_left fun _ => h.mem_iff

end MutationAnalysis
