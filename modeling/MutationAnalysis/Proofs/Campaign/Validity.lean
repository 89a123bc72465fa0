/-
Runs that meet nothing invalid.

A run that gets through its baseline has units that can be linked and tests that have
entries in them. Prepared units can be linked as well, unless a name that preparation adds
was in use before, so every worker is set up, finds the cell and the mutant of each of its
points, and has a verdict on every test.

* `Engine.GetsReady.isReady`, `Engine.GetsReady.suits`: what the workers of a run find;
* `Engine.MayRun.never_invalid`: no record of a report is invalid.
-/
import MutationAnalysis.Proofs.Campaign.Prepared
import MutationAnalysis.Proofs.Campaign.Verdicts

namespace MutationAnalysis

open Digest

namespace Engine

variable {e : Engine} {units prepared : List ProgramUnit} {tests : List Test}
  {baseline : List BaselineTest} {c : WorkerContext} {results : List MutationResult}

section

variable (h : e.GetsReady units tests baseline prepared c) (hnew : AreNew units)
  (hreserved : ∀ u ∈ units, ∀ name ∈ u.program.undefinedSymbols, SymbolName.isInternal name = false)
  (hfresh : ∀ name, Program.generated (findPoints e.operators units baseline) name →
    ∀ u ∈ units, ¬ u.program.Mentions name)

include h hnew hreserved

/-- The units are prepared for points of their own. -/
theorem GetsReady.isPreparedFor_of_areNew : List.Forall₂
    (IsPreparedFor (findPoints e.operators units baseline) c.keys) units prepared :=
  h.isPreparedFor fun _ hu _ => isOf_of_mem_mutated h.passes hnew
    (canLink_of_baseline h.passes hreserved).names_nodup hu

/-- The preserved body and the mutant of a point are among the functions of the prepared units. -/
theorem GetsReady.mem_names {q : MutationPoint} (hq : q ∈ findPoints e.operators units baseline) :
    q.key ∈ c.keys ∧
      SymbolName.preserved q.key ∈ (prepared.map (·.program)).flatMap Program.names ∧
      q.identifier ∈ (prepared.map (·.program)).flatMap Program.names := by
  obtain ⟨u, hu, hrole, hof⟩ := exists_unit_of_mem_findPoints h.passes hq
  have hmutated : q ∈ mutated (findPoints e.operators units baseline) u :=
    mem_mutated.mpr ⟨hrole, hq, hof.exists_function.1⟩
  obtain ⟨u', hu', hprepared⟩ :=
    exists_right_of_mem (h.isPreparedFor_of_areNew hnew hreserved) hu
  obtain ⟨hpreserved, hidentifier⟩ := hprepared.mem_names hmutated
  have hmem : ∀ name ∈ u'.program.names,
      name ∈ (prepared.map (·.program)).flatMap Program.names := fun name hname =>
    List.mem_flatMap.mpr ⟨u'.program, List.mem_map_of_mem hu', hname⟩
  exact ⟨hprepared.keys q hmutated, hmem _ hpreserved, hmem _ hidentifier⟩

include hfresh

/-- The workers of a run are ready if there is room for the addresses of all functions. -/
theorem GetsReady.isReady
    (hroom : ((prepared.map (·.program)).flatMap Program.names).length + Resolver.offered.length
      < UInt32.size) : c.IsReady (prepared.map (·.program)) := by
  have hlink := canLink_of_baseline h.passes hreserved
  have hprepared := h.isPreparedFor_of_areNew hnew hreserved
  refine ⟨represent_of_compileUnits h.compiles, ?_, fun p hp => ?_, fun key hkey => ?_, hroom⟩
  · rw [h.loader_eq]
    exact canLink_of_prepared hprepared hfresh hlink hnew
  · obtain ⟨u', hu', rfl⟩ := List.mem_map.mp hp
    obtain ⟨u, -, hu⟩ := exists_left_of_mem hprepared hu'
    exact hu.valid'
  · obtain ⟨q, hq, rfl⟩ := h.exists_point_of_mem_keys
      (fun u hu q => isOf_of_mem_mutated h.passes hnew hlink.names_nodup hu) hkey
    exact (h.mem_names hnew hreserved hq).2.1

/-- The workers of a run find what each of its points needs. -/
theorem GetsReady.suits {q : MutationPoint} (hq : q ∈ findPoints e.operators units baseline) :
    c.Suits (prepared.map (·.program)) q := by
  obtain ⟨hkey, hpreserved, hidentifier⟩ := h.mem_names hnew hreserved hq
  refine ⟨hkey, hpreserved, hidentifier, fun t ht => ?_⟩
  obtain ⟨b, hb, hname⟩ := exists_test_of_mem_findPoints hq ht
  have hgiven : b.test ∈ c.tests := h.tests_eq ▸ List.mem_map_of_mem hb
  obtain ⟨test, hmem, htest⟩ := c.exists_test? hgiven
  rw [h.tests_eq] at hmem
  obtain ⟨b', hb', rfl⟩ := List.mem_map.mp hmem
  exact ⟨b'.test, hname ▸ htest,
    hasEntry_of_prepared (h.isPreparedFor_of_areNew hnew hreserved) hfresh
    (fun u => cells_eq_nil_of_baseline h.passes) (hasEntry_of_baseline h.passes b' hb')⟩

end

/-- If the names that preparation adds are not in use, and no unit asks for a function under a
name that belongs to the engine, then every worker is set up with all its keys bound to their
preserved bodies, the cell and the mutant of each point are found, and no record is invalid.
The units are made of programs that their digests tell apart, and there are words enough to
give every function an address. -/
theorem MayRun.never_invalid (h : e.MayRun units tests baseline prepared c results)
    (hnew : AreNew units)
    (hfresh : ∀ name, Program.generated (findPoints e.operators units baseline) name →
      ∀ u ∈ units, ¬ u.program.Mentions name)
    (hreserved : ∀ u ∈ units, ∀ name ∈ u.program.undefinedSymbols,
      SymbolName.isInternal name = false)
    (hroom : ((prepared.map (·.program)).flatMap Program.names).length + Resolver.offered.length
      < UInt32.size) :
    (∃ t l, c.setup = .ok (t, l) ∧
      (∀ key ∈ c.keys, t.BoundTo l key (SymbolName.preserved key)) ∧
      ∀ q ∈ findPoints e.operators units baseline,
        q.key ∈ t.keys ∧ ∃ l', WorkerContext.bindMutant t l q = .ok l') ∧
    ∀ r ∈ (Report.of results).records, r.status ≠ .invalid := by
  obtain ⟨hready, workers, progress, -, hend⟩ := h
  have hworker := hready.isReady hnew hreserved hfresh hroom
  have hsuits := fun q hq => hready.suits (q := q) hnew hreserved hfresh hq
  constructor
  · obtain ⟨t, l, hsetup, hserves⟩ := hworker.exists_setup
    refine ⟨t, l, hsetup, (WorkerContext.isSetUp_of_setup hsetup).boundTo, fun q hq => ?_⟩
    obtain ⟨l', hbind, -⟩ := hserves.bindMutant (hsuits q hq)
    exact ⟨hserves.keys q.key (hsuits q hq).key, l', hbind⟩
  · intro r hr
    have hmem := (Report.records_perm results).mem_iff.mp hr
    obtain ⟨result, hresult, rfl⟩ := List.mem_map.mp hmem
    exact hworker.mayEnd hready.sandbox_eq hsuits hend result hresult

end Engine

/-- The programs of the doubling example, as they are read from files. -/
def doublingFiles : List ProgramUnit :=
  [.new doubling .source "d", .new doublingTest .test "t"]

/-- Texts are split step by step, so the identifiers are spelled out
before anything is evaluated. -/
theorem doublingFiles_eq : doublingFiles =
    [⟨doubling, .source, "d", "d_" ++ Md5.hexDigest doubling.toBytes⟩,
      ⟨doublingTest, .test, "t", "t_" ++ Md5.hexDigest doublingTest.toBytes⟩] := by
  have hparts : "d".splitOn "/" = ["d"] ∧ "t".splitOn "/" = ["t"] := by
    unfold String.splitOn
    unfold String.splitOnAux
    unfold String.splitOnAux
    decide +kernel
  have hstems : ProgramUnit.stem "d" = "d" ∧ ProgramUnit.stem "t" = "t" := by
    rw [ProgramUnit.stem, ProgramUnit.stem, Text.fileStem?, Text.fileStem?, Text.fileName?,
      Text.fileName?, hparts.1, hparts.2]
    decide +kernel
  rw [doublingFiles, ProgramUnit.new, ProgramUnit.new, hstems.1, hstems.2]
  rfl

theorem doublingFiles_areNew : Engine.AreNew doublingFiles where
  eq_new := by
    intro u hu
    rcases List.mem_cons.mp hu with rfl | hu
    · rfl
    · obtain rfl := List.mem_singleton.mp hu
      rfl
  digest := by
    rw [doublingFiles_eq]
    decide +kernel

theorem doublingFiles_never_invalid : ∃ baseline prepared c results,
    doublingEngine.MayRun doublingFiles doublingTests baseline prepared c results ∧
    results.length = 2 ∧ (∃ t l, c.setup = .ok (t, l)) ∧
    ∀ r ∈ (Report.of results).records, r.status ≠ .invalid := by
  have hruns : (doublingEngine.run doublingFiles doublingTests).toOption.any
      (fun results => results.length == 2) = true := by
    rw [doublingFiles_eq]
    decide +kernel
  have hpoints : (doublingEngine.baseline doublingFiles doublingTests).toOption.all (fun baseline =>
      let points := Engine.findPoints doublingEngine.operators doublingFiles baseline
      decide (∀ q ∈ points,
        ∀ name ∈ [SymbolName.cell q.key, SymbolName.preserved q.key, q.identifier],
        ∀ u ∈ doublingFiles, ¬ u.program.Mentions name)
      && (Engine.prepareUnits points doublingFiles).toOption.all fun prepared =>
        decide (((prepared.1.map (·.program)).flatMap Program.names).length
          + Resolver.offered.length < UInt32.size)) = true := by
    rw [doublingFiles_eq]
    decide +kernel
  have hreserved : ∀ u ∈ doublingFiles, ∀ name ∈ u.program.undefinedSymbols,
      SymbolName.isInternal name = false := by decide +kernel
  cases hrun : doublingEngine.run doublingFiles doublingTests with
  | error e =>
    rw [hrun] at hruns
    cases hruns
  | ok results =>
    rw [hrun] at hruns
    obtain ⟨baseline, prepared, c, hmay⟩ := Engine.mayRun_of_run hrun
    rw [hmay.1.passes] at hpoints
    obtain ⟨hnames, hroom⟩ := (Bool.and_eq_true _ _).mp hpoints
    rw [hmay.1.prepares] at hroom
    have hfresh : ∀ name,
        Program.generated (Engine.findPoints doublingEngine.operators doublingFiles
        baseline) name → ∀ u ∈ doublingFiles, ¬ u.program.Mentions name := by
      rintro name ⟨q, hq, hname⟩
      exact of_decide_eq_true hnames q hq name (by simpa using hname)
    obtain ⟨⟨t, l, hsetup, -⟩, hvalid⟩ := Engine.MayRun.never_invalid hmay doublingFiles_areNew
      hfresh hreserved (of_decide_eq_true hroom)
    exact ⟨baseline, prepared, c, results, hmay, beq_iff_eq.mp hruns, ⟨t, l, hsetup⟩, hvalid⟩

end MutationAnalysis
