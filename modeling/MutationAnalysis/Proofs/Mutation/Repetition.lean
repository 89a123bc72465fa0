/-
How often a point is found.

The finder makes the points of a function operator by operator, so it makes one for each time
that an operator is named.  Since an identifier says which operator it is of, and at which
address of which module, it occurs among the points found as often as its operator is among
those that were looked for: records of other functions and of other modules do not matter, nor
does how many records there are.

* `Function.nodup_addresses`: a function has no address twice;
* `ProgramUnit.count_identifier_points`: the points of one function;
* `Finder.count_identifier_own`: the points found in a unit after any records.
-/
import MutationAnalysis.Proofs.Mutation.Discovery
import MutationAnalysis.Proofs.Mutation.Edit
import MutationAnalysis.Proofs.Mutation.Identifier
import MutationAnalysis.Proofs.Unit.Preparation
import Mathlib.Data.List.Nodup

namespace MutationAnalysis

/-- What comes of one entry of a list only is there once for each time that the entry is. -/
theorem count_flatMap_single {α β : Type} [BEq α] [LawfulBEq α] [BEq β] [LawfulBEq β]
    {f : α → List β} {l : List α} {a : α} {x : β} (h : ∀ b, b ≠ a → x ∉ f b) :
    (l.flatMap f).count x = l.count a * (f a).count x := by
  induction l with
  | nil => rw [List.flatMap_nil, List.count_nil, List.count_nil, Nat.zero_mul]
  | cons b l ih =>
    rw [List.flatMap_cons, List.count_append, ih]
    by_cases hb : b = a
    · rw [hb, List.count_cons_self, Nat.succ_mul, Nat.add_comm]
    · rw [List.count_eq_zero.mpr (h b hb), List.count_cons_of_ne hb, Nat.zero_add]

theorem Function.nodup_addresses (index : Nat) (f : Function) : (f.addresses index).Nodup := by
  rw [addresses, List.nodup_flatMap]
  constructor
  · rintro ⟨block, b⟩ -
    exact List.nodup_range.map fun i j heq => congrArg Address.instruction heq
  · have hindices : (f.blocks.zipIdx.map Prod.snd).Nodup := by
      rw [List.zipIdx_map_snd]
      exact List.nodup_range'
    rw [List.Nodup, List.pairwise_map] at hindices
    refine hindices.imp fun {x y} hne a hx hy => hne ?_
    obtain ⟨i, -, rfl⟩ := List.mem_map.mp hx
    obtain ⟨j, -, heq⟩ := List.mem_map.mp hy
    exact (congrArg Address.block heq).symm

theorem Operator.identifier_of_point? {o : Operator} {unit : ProgramUnit} {a : Address}
    {q : MutationPoint} (h : o.point? unit a = some q) :
    q.identifier = MutationPoint.identifierOf unit.identifier a o := by
  obtain ⟨f, i, -, -, -, rfl⟩ := eq_of_point? h
  rfl

namespace ProgramUnit

variable {unit : ProgramUnit} {operators : List Operator} {function : Nat} {q : MutationPoint}

/-- The points of a unit are made by its program and its identifier. -/
theorem points_congr {other : ProgramUnit} (hidentifier : other.identifier = unit.identifier)
    (hprogram : other.program = unit.program) :
    other.points operators function = unit.points operators function := by
  have hpoint : ∀ o : Operator, o.point? other = o.point? unit := fun o => by
    funext a
    rw [Operator.point?, Operator.point?, hidentifier, hprogram]
  simp only [points, hprogram, hpoint]

/-- A point of a function is made once for each time that its operator is looked for. -/
theorem count_identifier_points (hq : q ∈ unit.points operators function) :
    ((unit.points operators function).map (·.identifier)).count q.identifier
      = operators.count q.operator := by
  obtain ⟨o, -, block, i, hpoint⟩ := mem_points.mp hq
  have hidentifier := Operator.identifier_of_point? hpoint
  obtain ⟨f, x, hf, hx, -, rfl⟩ := Operator.eq_of_point? hpoint
  -- what each operator makes of the function
  let made : Operator → List String := fun o =>
    ((f.addresses function).filterMap (o.point? unit)).map (·.identifier)
  have hpoints : (unit.points operators function).map (·.identifier) = operators.flatMap made := by
    simp only [points, hf, List.map_flatMap, made]
  have hmade : ∀ {name : String} {o' : Operator}, name ∈ made o' →
      ∃ a, name = MutationPoint.identifierOf unit.identifier a o' := by
    intro name o' hname
    obtain ⟨k, hk, rfl⟩ := List.mem_map.mp hname
    obtain ⟨a, -, hpoint'⟩ := List.mem_filterMap.mp hk
    exact ⟨a, Operator.identifier_of_point? hpoint'⟩
  have hself : (made o).count (MutationPoint.identifierOf unit.identifier ⟨function, block, i⟩ o)
      = 1 := by
    have hnodup : (made o).Nodup := by
      simp only [made, List.map_filterMap]
      refine (f.nodup_addresses function).filterMap fun a a' name ha ha' => ?_
      obtain ⟨k, hk, rfl⟩ := Option.map_eq_some_iff.mp ha
      obtain ⟨k', hk', heq⟩ := Option.map_eq_some_iff.mp ha'
      rw [Operator.identifier_of_point? hk, Operator.identifier_of_point? hk'] at heq
      exact (MutationPoint.identifierOf_injective heq).2.1.symm
    refine List.count_eq_one_of_mem hnodup
      (List.mem_map.mpr ⟨_, List.mem_filterMap.mpr ⟨_, ?_, hpoint⟩, ?_⟩)
    · exact Function.mem_addresses.mpr ⟨rfl, by rw [hx]; rfl⟩
    · exact hidentifier
  show ((unit.points operators function).map (·.identifier)).count
    (MutationPoint.identifierOf unit.identifier ⟨function, block, i⟩ o) = operators.count o
  rw [hpoints, count_flatMap_single (a := o), hself, Nat.mul_one]
  intro o' hne hmem
  obtain ⟨a, heq⟩ := hmade hmem
  exact hne (MutationPoint.identifierOf_injective heq).2.2.symm

end ProgramUnit

namespace Finder

/-- The points that are found with operators after records. -/
def find (operators : List Operator) (records : List FinderRecord) : List MutationPoint :=
  ((new operators).takeAll records).points

variable {operators : List Operator} {records : List FinderRecord} {unit : ProgramUnit}
  {q : MutationPoint} {key : String × Nat}

/-- The points of a recorded function are those of it in the unit of one of its records. -/
theorem exists_of_mem_pointsOf (hq : q ∈ pointsOf operators records key) :
    ∃ r ∈ records, r.key = key ∧ pointsOf operators records key
        = (r.unit.points operators key.2).map (·.withTests (testsOf records key)) ∧
      ∃ k ∈ r.unit.points operators key.2, q = k.withTests (testsOf records key) := by
  rw [pointsOf] at hq ⊢
  cases hfind : records.find? (·.key == key) with
  | none =>
    rw [hfind] at hq
    cases hq
  | some r =>
    rw [hfind] at hq
    obtain rfl : r.key = key := by simpa using List.find?_some hfind
    obtain ⟨k, hk, rfl⟩ := List.mem_map.mp hq
    exact ⟨r, List.mem_of_find?_eq_some hfind, rfl, rfl, k, hk, rfl⟩

/-- A point of a recorded function has the function's key. -/
theorem key_of_mem_pointsOf (hq : q ∈ pointsOf operators records key) :
    (q.moduleId, q.address.function) = key := by
  obtain ⟨r, -, rfl, -, k, hk, rfl⟩ := exists_of_mem_pointsOf hq
  obtain ⟨o, -, block, i, hpoint⟩ := ProgramUnit.mem_points.mp hk
  obtain ⟨f, x, -, -, -, rfl⟩ := Operator.eq_of_point? hpoint
  rfl

variable (hunits : ∀ r ∈ records, r.unit.identifier = unit.identifier →
  r.unit.program = unit.program)

include hunits

/-- The points of a recorded function of a unit are those that the operators make there. -/
theorem pointsOf_eq_of_mem (hq : q ∈ pointsOf operators records key)
    (hkey : key.1 = unit.identifier) :
    pointsOf operators records key
        = (unit.points operators key.2).map (·.withTests (testsOf records key)) ∧
      ∃ k ∈ unit.points operators key.2, q = k.withTests (testsOf records key) := by
  obtain ⟨r, hr, rfl, hpoints, hk⟩ := exists_of_mem_pointsOf hq
  rw [ProgramUnit.points_congr hkey (hunits r hr hkey)] at hpoints hk
  exact ⟨hpoints, hk⟩

/-- Points that are found in a unit are points of it. -/
theorem isOf_of_mem_own (hq : q ∈ unit.own (find operators records)) : q.IsOf unit := by
  obtain ⟨hq, hmodule⟩ := ProgramUnit.mem_own.mp hq
  rw [find, points_takeAll] at hq
  obtain ⟨key, -, hq⟩ := List.mem_flatMap.mp hq
  have hkey : key.1 = unit.identifier := by
    rw [← key_of_mem_pointsOf hq]
    exact hmodule
  obtain ⟨-, k, hk, rfl⟩ := pointsOf_eq_of_mem hunits hq hkey
  obtain ⟨o, -, block, i, hpoint⟩ := ProgramUnit.mem_points.mp hk
  exact MutationPoint.isOf_of_point? hpoint _

/-- A point is found in a unit once for each time that its operator is looked for. -/
theorem count_identifier_own (hq : q ∈ unit.own (find operators records)) :
    ((unit.own (find operators records)).map (·.identifier)).count q.identifier
      = operators.count q.operator := by
  obtain ⟨hq, hmodule⟩ := ProgramUnit.mem_own.mp hq
  rw [find, points_takeAll] at hq
  obtain ⟨key, hrecorded, hq⟩ := List.mem_flatMap.mp hq
  have hkey := key_of_mem_pointsOf hq
  have hidentifier : key.1 = unit.identifier := by
    rw [← hkey]
    exact hmodule
  obtain ⟨hpoints, k, hk, hqk⟩ := pointsOf_eq_of_mem hunits hq hidentifier
  have hself : ((unit.own (pointsOf operators records key)).map (·.identifier)).count q.identifier
      = operators.count q.operator := by
    have hown : unit.own (pointsOf operators records key) = pointsOf operators records key := by
      refine List.filter_eq_self.mpr fun p hp => beq_iff_eq.mpr ?_
      rw [← hidentifier, ← key_of_mem_pointsOf hp]
    rw [hown, hpoints, List.map_map, hqk]
    exact ProgramUnit.count_identifier_points (q := k) hk
  rw [find, points_takeAll, ProgramUnit.own, List.filter_flatMap, List.map_flatMap,
    count_flatMap_single (a := key)]
  · rw [List.count_eq_one_of_mem (nodup_eraseDups _) hrecorded, Nat.one_mul]
    exact hself
  · -- the identifier of a point tells which function it is in
    intro key' hne hmem
    obtain ⟨p, hp, heq⟩ := List.mem_map.mp hmem
    obtain ⟨hmodule', haddress, -⟩ := MutationPoint.identifierOf_injective heq
    refine hne ?_
    rw [← key_of_mem_pointsOf (List.mem_filter.mp hp).1, ← hkey, hmodule', haddress]

end Finder

end MutationAnalysis
