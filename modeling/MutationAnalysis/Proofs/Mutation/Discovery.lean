/-
What the finder finds.

The finder makes the points of a function once and adds tests to them afterwards.  In the
end this is as if the records had been sorted by function first: the functions stand in
the order of their first records, each with all its points, and each point with the tests
of all records of its function.

* `Finder.addTest_eq`: what one record adds to a function that was recorded before;
* `Finder.found_takeAll`: what is found after any records;
* `Finder.points_takeAll`: the points of it.
-/
import MutationAnalysis.Mutation.Discovery
import MutationAnalysis.Proofs.Distinct
import Mathlib.Data.List.Induction
import Mathlib.Tactic.Common

namespace MutationAnalysis

/-- What the finder is told: that a test reaches a function of a unit at a distance. -/
structure FinderRecord where
  unit : ProgramUnit
  function : Nat
  test : String
  distance : Nat

/-- The function of a record, by the identifier of its unit. -/
def FinderRecord.key (r : FinderRecord) : String × Nat := (r.unit.identifier, r.function)

def FoundFunction.key (e : FoundFunction) : String × Nat := (e.moduleId, e.function)

/-- The point with other tests. -/
def MutationPoint.withTests (p : MutationPoint) (tests : List (String × Nat)) : MutationPoint :=
  { p with reachableTests := tests }

/-! ### Points of one function -/

theorem Operator.eq_of_point? {o : Operator} {unit : ProgramUnit} {a : Address} {p : MutationPoint}
    (h : o.point? unit a = some p) : ∃ f i, unit.program.functions[a.function]? = some f ∧
      f.instruction? a.block a.instruction = some i ∧ o.applies unit.program i = true ∧
      p = ⟨unit.identifier, f.name, a, o, o.diagnostics i, i.location, []⟩ := by
  obtain ⟨f, hf, h⟩ := Option.bind_eq_some_iff.mp h
  obtain ⟨i, hi, h⟩ := Option.bind_eq_some_iff.mp h
  split at h
  · rename_i happlies
    exact ⟨f, i, hf, hi, happlies, (Option.some.inj h).symm⟩
  · cases h

/-- The addresses of a function are those at which it has an instruction. -/
theorem Function.mem_addresses {index : Nat} {f : Function} {a : Address} :
    a ∈ f.addresses index ↔
      a.function = index ∧ (f.instruction? a.block a.instruction).isSome := by
  have hblock : ∀ b i, (f.instruction? b i).isSome ↔
      ∃ block, f.blocks[b]? = some block ∧ i < block.instructions.length := by
    intro b i
    rw [Option.isSome_iff_exists]
    constructor
    · rintro ⟨x, hx⟩
      obtain ⟨block, hb, hx⟩ := Option.bind_eq_some_iff.mp hx
      exact ⟨block, hb, (List.getElem?_eq_some_iff.mp hx).1⟩
    · rintro ⟨block, hb, hi⟩
      exact ⟨_, Option.bind_eq_some_iff.mpr ⟨block, hb, List.getElem?_eq_getElem hi⟩⟩
  rw [hblock, addresses, List.mem_flatMap]
  constructor
  · rintro ⟨⟨block, b⟩, hmem, ha⟩
    obtain ⟨i, hi, rfl⟩ := List.mem_map.mp ha
    exact ⟨rfl, block, List.mk_mem_zipIdx_iff_getElem?.mp hmem, List.mem_range.mp hi⟩
  · rintro ⟨rfl, block, hb, hi⟩
    exact ⟨(block, a.block), List.mk_mem_zipIdx_iff_getElem?.mpr hb,
      List.mem_map.mpr ⟨a.instruction, List.mem_range.mpr hi, rfl⟩⟩

/-- The points of a function are those that the operators make at its instructions. -/
theorem ProgramUnit.mem_points {unit : ProgramUnit} {operators : List Operator} {function : Nat}
    {p : MutationPoint} : p ∈ unit.points operators function ↔
      ∃ o ∈ operators, ∃ block instruction,
        o.point? unit ⟨function, block, instruction⟩ = some p := by
  rw [points]
  cases hf : unit.program.functions[function]? with
  | none =>
    refine iff_of_false List.not_mem_nil ?_
    rintro ⟨o, -, block, i, h⟩
    obtain ⟨f, -, hf', -⟩ := Operator.eq_of_point? h
    rw [hf] at hf'
    cases hf'
  | some f =>
    simp only [List.mem_flatMap, List.mem_filterMap]
    refine exists_congr fun o => and_congr_right fun _ => ?_
    constructor
    · rintro ⟨a, ha, hp⟩
      obtain ⟨rfl, -⟩ := Function.mem_addresses.mp ha
      exact ⟨a.block, a.instruction, hp⟩
    · rintro ⟨block, i, hp⟩
      obtain ⟨f', x, hf', hx, -⟩ := Operator.eq_of_point? hp
      obtain rfl := Option.some.inj (hf.symm.trans hf')
      exact ⟨_, Function.mem_addresses.mpr ⟨rfl, by rw [hx]; rfl⟩, hp⟩

theorem ProgramUnit.reachableTests_of_mem_points {unit : ProgramUnit} {operators : List Operator}
    {function : Nat} {p : MutationPoint} (h : p ∈ unit.points operators function) :
    p.reachableTests = [] := by
  obtain ⟨o, -, block, i, hp⟩ := mem_points.mp h
  obtain ⟨f, x, -, -, -, rfl⟩ := Operator.eq_of_point? hp
  rfl

namespace Finder

variable {operators : List Operator} {records : List FinderRecord} {r : FinderRecord}
  {found : List FoundFunction} {moduleId test : String} {function distance : Nat}

/-! ### Records of one function -/

/-- A record adds its test to the points of its function, if that was recorded before. -/
theorem addTest_eq (hnodup : (found.map FoundFunction.key).Nodup) :
    addTest moduleId function test distance found
      = if (found.map FoundFunction.key).contains (moduleId, function) then
          some (found.map fun e => if e.key = (moduleId, function) then
            { e with points := e.points.map (·.addTest test distance) } else e)
        else none := by
  induction found with
  | nil => rfl
  | cons e rest ih =>
    rw [List.map_cons, List.nodup_cons] at hnodup
    have hkey : e.moduleId = moduleId ∧ e.function = function ↔ e.key = (moduleId, function) := by
      rw [FoundFunction.key, Prod.mk.injEq]
    rw [addTest]
    by_cases h : e.key = (moduleId, function)
    · rw [if_pos (hkey.mpr h), List.map_cons, List.map_cons, if_pos h, h,
        if_pos (by simp)]
      -- no other entry is of this function
      have hrest : (rest.map fun e => if e.key = (moduleId, function) then
          { e with points := e.points.map (·.addTest test distance) } else e) = rest := by
        refine (List.map_congr_left fun e' he' => if_neg fun h' => ?_).trans (List.map_id _)
        exact hnodup.1 (h ▸ h' ▸ List.mem_map_of_mem he')
      rw [hrest]
    · rw [if_neg (mt hkey.mp h), ih hnodup.2, List.map_cons, List.map_cons, if_neg h,
        List.contains_cons]
      have hne : ((moduleId, function) == e.key) = false := by simpa using Ne.symm h
      rw [hne, Bool.false_or]
      split <;> rfl

/-! ### Any records -/

/-- Takes a record. -/
def take (finder : Finder) (r : FinderRecord) : Finder :=
  finder.record r.unit r.function r.test r.distance

/-- Takes records one after the other. -/
def takeAll (finder : Finder) (records : List FinderRecord) : Finder :=
  records.foldl take finder

/-- The tests of the records of a function. -/
def testsOf (records : List FinderRecord) (key : String × Nat) : List (String × Nat) :=
  (records.filter (·.key == key)).map fun r => (r.test, r.distance)

/-- The points of a function that its first record makes, with the tests of all its records. -/
def pointsOf (operators : List Operator) (records : List FinderRecord) (key : String × Nat) :
    List MutationPoint :=
  match records.find? (·.key == key) with
  | some r => (r.unit.points operators r.function).map (·.withTests (testsOf records key))
  | none => []

/-- What the finder keeps of a function. -/
def entryOf (operators : List Operator) (records : List FinderRecord) (key : String × Nat) :
    FoundFunction :=
  ⟨key.1, key.2, pointsOf operators records key⟩

theorem testsOf_concat (key : String × Nat) : testsOf (records ++ [r]) key
    = testsOf records key ++ if r.key = key then [(r.test, r.distance)] else [] := by
  rw [testsOf, List.filter_append, List.map_append, ← testsOf]
  by_cases h : r.key = key <;> simp [h]

/-- One more record of a function adds its test to the function's points. -/
theorem pointsOf_concat_self (h : r.key ∈ records.map FinderRecord.key) :
    pointsOf operators (records ++ [r]) r.key
      = (pointsOf operators records r.key).map (·.addTest r.test r.distance) := by
  rw [pointsOf, pointsOf, List.find?_append, testsOf_concat, if_pos rfl]
  cases hfind : records.find? (·.key == r.key) with
  | none =>
    obtain ⟨r', hr', hkey⟩ := List.mem_map.mp h
    exact absurd hkey (by simpa using List.find?_eq_none.mp hfind r' hr')
  | some first =>
    show List.map _ _ = List.map _ (List.map _ _)
    rw [List.map_map]
    rfl

/-- The first record of a function makes the function's points. -/
theorem pointsOf_concat_new (h : r.key ∉ records.map FinderRecord.key) :
    pointsOf operators (records ++ [r]) r.key
      = (r.unit.points operators r.function).map (·.addTest r.test r.distance) := by
  have hnone : ∀ r' ∈ records, ¬ (r'.key == r.key) = true := fun r' hr' heq =>
    h (beq_iff_eq.mp heq ▸ List.mem_map_of_mem hr')
  have htests : testsOf records r.key = [] := by
    rw [testsOf, List.filter_eq_nil_iff.mpr hnone]
    rfl
  rw [pointsOf, List.find?_append, List.find?_eq_none.mpr hnone, testsOf_concat, htests, if_pos rfl,
    Option.none_or, List.find?_cons, beq_self_eq_true]
  refine List.map_congr_left fun p hp => ?_
  rw [MutationPoint.addTest, ProgramUnit.reachableTests_of_mem_points hp]
  rfl

/-- A record leaves the points of other functions as they are. -/
theorem pointsOf_concat_of_ne {key : String × Nat} (h : r.key ≠ key) :
    pointsOf operators (records ++ [r]) key = pointsOf operators records key := by
  have hlast : List.find? (fun r' => r'.key == key) [r] = none := by simpa using h
  rw [pointsOf, pointsOf, List.find?_append, testsOf_concat, if_neg h, List.append_nil, hlast,
    Option.or_none]

theorem takeAll_concat (finder : Finder) :
    finder.takeAll (records ++ [r]) = (finder.takeAll records).take r := by
  rw [takeAll, List.foldl_append]
  rfl

theorem operators_takeAll (finder : Finder) (records : List FinderRecord) :
    (finder.takeAll records).operators = finder.operators := by
  induction records using List.reverseRecOn with
  | nil => rfl
  | append_singleton records r ih =>
    rw [takeAll_concat, take, record]
    split <;> exact ih

/-- The finder keeps each recorded function once, in the order of the first records. -/
theorem found_takeAll (operators : List Operator) (records : List FinderRecord) :
    ((new operators).takeAll records).found
      = (records.map FinderRecord.key).eraseDups.map (entryOf operators records) := by
  induction records using List.reverseRecOn with
  | nil => rfl
  | append_singleton records r ih =>
    have hkeys : ((records.map FinderRecord.key).eraseDups.map (entryOf operators records)).map
        FoundFunction.key = (records.map FinderRecord.key).eraseDups := by
      rw [List.map_map]
      exact List.map_id _
    have hoperators := operators_takeAll (new operators) records
    rw [takeAll_concat, take, record, ih, addTest_eq (by rw [hkeys]; exact nodup_eraseDups _),
      hkeys, List.map_append, List.map_singleton, eraseDups_concat]
    have hcontains : (records.map FinderRecord.key).eraseDups.contains
        (r.unit.identifier, r.function)
        = (records.map FinderRecord.key).contains r.key := by
      rw [Bool.eq_iff_iff, List.contains_iff_mem, List.contains_iff_mem, List.mem_eraseDups]
      rfl
    rw [hcontains]
    -- a record of a known function adds its test there; any other one is a new entry at the end
    by_cases hmem : r.key ∈ records.map FinderRecord.key
    · rw [if_pos (List.contains_iff_mem.mpr hmem), if_pos (List.contains_iff_mem.mpr hmem)]
      show List.map _ (List.map _ _) = _
      rw [List.map_map]
      refine List.map_congr_left fun key _ => ?_
      show (if key = r.key then _ else _) = _
      split
      · rename_i heq
        subst heq
        rw [entryOf, entryOf, pointsOf_concat_self hmem]
      · rename_i hne
        rw [entryOf, entryOf, pointsOf_concat_of_ne (Ne.symm hne)]
    · rw [if_neg (mt List.contains_iff_mem.mp hmem), if_neg (mt List.contains_iff_mem.mp hmem)]
      show _ ++ [_] = _
      rw [hoperators, List.map_append, List.map_singleton, entryOf, pointsOf_concat_new hmem]
      refine congrArg₂ (· ++ ·) (List.map_congr_left fun key hkey => ?_) rfl
      have hne : r.key ≠ key := fun heq => hmem (heq ▸ List.mem_eraseDups.mp hkey)
      rw [entryOf, entryOf, pointsOf_concat_of_ne hne]

/-- The points of the recorded functions, with the tests of their records. -/
theorem points_takeAll (operators : List Operator) (records : List FinderRecord) :
    ((new operators).takeAll records).points
      = (records.map FinderRecord.key).eraseDups.flatMap (pointsOf operators records) := by
  rw [points, found_takeAll, List.flatMap_map]
  rfl

end Finder

end MutationAnalysis
