/-
Names that preparation adds.

Preparing a program keeps the names that it has and adds, group after group, the preserved name of
the function and the identifiers of its points.  A prepared unit has no name twice, so no two of
its points have one identifier.

* `PointGroup.perm_ofPoints`, `PointGroup.functions_ofPoints`: the groups hold the points, each as
  often as the list does, and are in the order in which their functions are first seen;
* `Program.names_prepareGroups`: the names after preparation;
* `ProgramUnit.names_of_prepare`: the names of a prepared unit;
* `ProgramUnit.nodup_identifiers_of_prepare`: points that a unit is prepared
  for differ in their identifiers.
-/
import MutationAnalysis.Proofs.Distinct
import MutationAnalysis.Proofs.Unit.Redirection
import Mathlib.Data.List.Induction

namespace MutationAnalysis

theorem PointGroup.perm_insert (p : MutationPoint) (groups : List PointGroup) :
    ((insert p groups).flatMap (·.points)).Perm (p :: groups.flatMap (·.points)) := by
  induction groups with
  | nil => exact .refl _
  | cons g rest ih =>
    rw [insert]
    split
    · rw [List.flatMap_cons, List.flatMap_cons, List.append_assoc]
      exact List.perm_middle
    · rw [List.flatMap_cons, List.flatMap_cons]
      exact (ih.append_left _).trans List.perm_middle

/-- The groups hold the points. -/
theorem PointGroup.perm_ofPoints (points : List MutationPoint) :
    ((ofPoints points).flatMap (·.points)).Perm points := by
  have hfold : ∀ (points : List MutationPoint) (groups : List PointGroup),
      ((points.foldl (fun groups p => insert p groups) groups).flatMap (·.points)).Perm
        (points ++ groups.flatMap (·.points)) := by
    intro points
    induction points with
    | nil => exact fun groups => .refl _
    | cons p rest ih =>
      intro groups
      refine (ih (insert p groups)).trans ?_
      exact ((perm_insert p groups).append_left rest).trans List.perm_middle
  exact (hfold points []).trans (.of_eq (List.append_nil _))

/-- The functions of the groups are those of the points, in the order
in which they are first seen. -/
theorem PointGroup.functions_ofPoints (points : List MutationPoint) :
    (ofPoints points).map (·.function) = (points.map (·.address.function)).eraseDups := by
  -- a point goes to the group of its function, or begins one after all others
  have hinsert : ∀ (p : MutationPoint) (groups : List PointGroup),
      (insert p groups).map (·.function) = if (groups.map (·.function)).contains p.address.function
        then groups.map (·.function) else groups.map (·.function) ++ [p.address.function] := by
    intro p groups
    induction groups with
    | nil => rfl
    | cons g rest ih =>
      rw [insert, List.map_cons, List.contains_cons]
      by_cases heq : g.function = p.address.function
      · rw [if_pos heq, if_pos (by simp [heq])]
        rfl
      · have hne : (p.address.function == g.function) = false := by simpa using Ne.symm heq
        rw [if_neg heq, List.map_cons, ih, hne, Bool.false_or]
        split <;> rfl
  induction points using List.reverseRecOn with
  | nil => rfl
  | append_singleton points p ih =>
    have hlast : ofPoints (points ++ [p]) = insert p (ofPoints points) := by
      rw [ofPoints, List.foldl_append]
      rfl
    have hcontains : (points.map (·.address.function)).eraseDups.contains p.address.function
        = (points.map (·.address.function)).contains p.address.function := by
      rw [Bool.eq_iff_iff, List.contains_iff_mem, List.contains_iff_mem, List.mem_eraseDups]
    rw [hlast, hinsert, ih, List.map_append, List.map_singleton, eraseDups_concat, hcontains]

namespace Program

variable {p p' : Program} {moduleId key : String} {g : PointGroup} {groups : List PointGroup}

/-- A program that does through stubs what another does has that one's functions. -/
theorem Redirects.names_subset {holds : String → String → Prop} {fresh : String → Prop}
    (h : p.Redirects p' holds fresh) : p.names ⊆ p'.names := by
  obtain ⟨added, hnames, -⟩ := h.names
  intro name hname
  rw [Program.names, hnames]
  exact List.mem_append_left added hname

theorem names_prepareGroup (h : p.prepareGroup moduleId g = (p', .ok key)) :
    p'.names = p.names ++ SymbolName.preserved key :: g.points.map (·.identifier) := by
  obtain ⟨f, mutants, hf, -, rfl, hmutants, rfl⟩ := prepareGroup_eq_ok h
  have hadded : ∀ (points : List MutationPoint) (mutants : List Function),
      List.Forall₂ (fun q m => q.mutant f = .ok m) points mutants →
      mutants.map (·.name) = points.map (·.identifier) := by
    intro points mutants hmutants
    induction hmutants with
    | nil => rfl
    | cons hm _ ih =>
      obtain ⟨x, -, rfl⟩ := mutant_eq_ok.mp hm
      rw [List.map_cons, List.map_cons, ih]
  have hlt := (List.getElem?_eq_some_iff.mp hf).1
  have hstill : (p.functions ++ preservedBody moduleId f :: mutants)[g.function]? = some f := by
    rw [List.getElem?_append_left hlt, hf]
  refine (map_set_eq (b := stubOf moduleId f) hstill rfl).trans ?_
  rw [List.map_append, List.map_cons, hadded _ _ hmutants]
  rfl

/-- What preparation adds has the preserved names of the keys, and the identifiers of all points. -/
theorem names_prepareGroups {keys keys' : List String}
    (h : p.prepareGroups moduleId keys groups = ⟨p', .ok keys'⟩) :
    ∃ new added, keys' = keys ++ new ∧ new.length = groups.length ∧ p'.names = p.names ++ added ∧
      added.Perm (new.map SymbolName.preserved ++ (groups.flatMap (·.points)).map
        (·.identifier)) := by
  induction groups generalizing p keys with
  | nil =>
    obtain ⟨rfl, hkeys⟩ := Preparation.mk.inj h
    obtain rfl := Except.ok.inj hkeys
    exact ⟨[], [], (List.append_nil _).symm, rfl, (List.append_nil _).symm, .refl _⟩
  | cons g rest ih =>
    rw [prepareGroups] at h
    split at h
    · exact absurd (Preparation.mk.inj h).2 (by simp)
    · rename_i p₁ key hgroup
      obtain ⟨new, added, hkeys, hlength, hnames, hperm⟩ := ih h
      refine ⟨key :: new, SymbolName.preserved key :: (g.points.map (·.identifier) ++ added),
        ?_, ?_, ?_, ?_⟩
      · rw [hkeys, List.append_assoc]
        rfl
      · rw [List.length_cons, List.length_cons, hlength]
      · rw [hnames, names_prepareGroup hgroup, List.append_assoc, List.cons_append]
      · rw [List.map_cons, List.cons_append, List.flatMap_cons, List.map_append]
        refine ((hperm.append_left _).trans ?_).cons _
        rw [← List.append_assoc, ← List.append_assoc]
        exact List.perm_append_comm.append_right _

/-- Preparing the groups of points adds the preserved names of the keys
and the points' identifiers. -/
theorem names_prepareGroups_ofPoints {points : List MutationPoint} {keys : List String}
    (h : p.prepareGroups moduleId [] (PointGroup.ofPoints points) = ⟨p', .ok keys⟩) :
    keys.length = (PointGroup.ofPoints points).length ∧ ∃ added, p'.names = p.names ++ added ∧
      added.Perm (keys.map SymbolName.preserved ++ points.map (·.identifier)) := by
  obtain ⟨_, added, rfl, hlength, hnames, hperm⟩ := names_prepareGroups h
  exact ⟨hlength, added, hnames,
    hperm.trans (((PointGroup.perm_ofPoints points).map _).append_left _)⟩

end Program

namespace ProgramUnit

variable {unit unit' : ProgramUnit} {points : List MutationPoint} {keys : List String}

/-- A prepared unit has the names that it had, the preserved names of the keys, and
the identifiers of its points. -/
theorem names_of_prepare (h : unit.prepare points = (unit', .ok keys)) :
    unit'.program.names.Nodup ∧ ∃ added, unit'.program.names = unit.program.names ++ added ∧
      added.Perm (keys.map SymbolName.preserved ++ (unit.own points).map (·.identifier)) := by
  obtain ⟨-, hvalid, hgroups⟩ := prepare_eq_ok h
  exact ⟨(Program.isValid_of_validate hvalid).names_nodup,
    (Program.names_prepareGroups_ofPoints hgroups).2⟩

/-- Points that a unit is prepared for differ in their identifiers. -/
theorem nodup_identifiers_of_prepare (h : unit.prepare points = (unit', .ok keys)) :
    ((unit.own points).map (·.identifier)).Nodup := by
  obtain ⟨hnodup, added, hnames, hperm⟩ := names_of_prepare h
  rw [hnames] at hnodup
  exact (hperm.nodup_iff.mp hnodup.of_append_right).of_append_right

theorem identifier_mem_names_of_prepare (h : unit.prepare points = (unit', .ok keys))
    {q : MutationPoint} (hq : q ∈ unit.own points) : q.identifier ∈ unit'.program.names := by
  obtain ⟨-, added, hnames, hperm⟩ := names_of_prepare h
  rw [hnames]
  exact List.mem_append_right _
    (hperm.mem_iff.mpr (List.mem_append_right _ (List.mem_map_of_mem hq)))

end ProgramUnit

end MutationAnalysis
