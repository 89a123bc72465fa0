/-
The finder finds what would be found without a cache.

The finder searches a function when it is first recorded, in the unit of that record, and never
again. Where units with one identifier have one program, it makes no difference in which of them a
function is searched, and what is found in the end is what a search of each recorded function would
find: operator by operator, block by block and instruction by instruction, with the tests of all
records of the function and of no other.

* `ProgramUnit.scan`: the search, instruction by instruction;
* `ProgramUnit.scan_congr`: it depends on identifier and program only;
* `Finder.pointsOf_key`: it may be made for any record of a function;
* `Finder.points_takeAll_uncached`: what is found after any records.
-/
import MutationAnalysis.Proofs.Mutation.Discovery
import MutationAnalysis.Proofs.Mutation.Minimality

namespace MutationAnalysis

/-! ### Searching a function -/

/-- The points that operators make in a function, for each of them at every
instruction of every block. -/
def ProgramUnit.scan (unit : ProgramUnit) (operators : List Operator) (function : Nat) :
    List MutationPoint :=
  match unit.program.functions[function]? with
  | none => []
  | some f => operators.flatMap fun o => f.blocks.zipIdx.flatMap fun (block, b) =>
      (List.range block.instructions.length).filterMap fun i => o.point? unit ⟨function, b, i⟩

theorem Function.filterMap_addresses {α : Type} (f : Function) (index : Nat)
    (g : Address → Option α) :
    (f.addresses index).filterMap g = f.blocks.zipIdx.flatMap fun (block, b) =>
      (List.range block.instructions.length).filterMap fun i => g ⟨index, b, i⟩ := by
  rw [addresses, List.filterMap_flatMap]
  refine congrArg (List.flatMap · _) (funext fun x => ?_)
  rw [List.filterMap_map]
  rfl

namespace ProgramUnit

theorem points_eq_scan (unit : ProgramUnit) (operators : List Operator) (function : Nat) :
    unit.points operators function = unit.scan operators function := by
  rw [points, scan]
  cases unit.program.functions[function]? with
  | none => rfl
  | some f =>
    exact congrArg (List.flatMap · _)
      (funext fun o => f.filterMap_addresses function (o.point? unit))

/-- Role and path of a unit are nothing to a search. -/
theorem scan_congr {unit unit' : ProgramUnit} (hid : unit.identifier = unit'.identifier)
    (hprogram : unit.program = unit'.program) (operators : List Operator) (function : Nat) :
    unit.scan operators function = unit'.scan operators function := by
  have hpoint : ∀ (o : Operator) (a : Address), o.point? unit a = o.point? unit' a := by
    intro o a
    rw [Operator.point?, Operator.point?, hid, hprogram]
  simp only [scan, hprogram, hpoint]

theorem scan_of_le {unit : ProgramUnit} {function : Nat}
    (h : unit.program.functions.length ≤ function) (operators : List Operator) :
    unit.scan operators function = [] := by
  rw [scan, List.getElem?_eq_none h]

end ProgramUnit

namespace Finder

variable {operators : List Operator} {records : List FinderRecord} {r : FinderRecord}

/-! ### Any records -/

/-- Units of the records that have the same identifier have the same program. -/
def AreIdentified (records : List FinderRecord) : Prop :=
  ∀ r ∈ records, ∀ r' ∈ records, r.unit.identifier = r'.unit.identifier →
    r.unit.program = r'.unit.program

/-- The points of a recorded function are those of a search in any unit that it was recorded of. -/
theorem pointsOf_key (h : AreIdentified records) (hr : r ∈ records) :
    pointsOf operators records r.key
    = (r.unit.scan operators r.function).map (·.withTests (testsOf records r.key)) := by
  rw [pointsOf]
  cases hfind : records.find? (·.key == r.key) with
  | none => exact absurd (beq_self_eq_true r.key) (List.find?_eq_none.mp hfind r hr)
  | some first =>
    have hkey : first.key = r.key := by simpa using List.find?_some hfind
    obtain ⟨hid, hfunction⟩ := Prod.mk.injEq .. ▸ hkey
    have hprogram := h first (List.mem_of_find?_eq_some hfind) r hr hid
    show List.map _ (first.unit.points operators first.function) = _
    rw [ProgramUnit.points_eq_scan, hfunction, ProgramUnit.scan_congr hid hprogram]

/-- Found points are of a recorded function, and their tests are those recorded of it. -/
theorem tests_of_mem_points_takeAll {p : MutationPoint}
    (hp : p ∈ ((new operators).takeAll records).points) :
    (p.moduleId, p.address.function) ∈ records.map FinderRecord.key ∧
      p.reachableTests = testsOf records (p.moduleId, p.address.function) := by
  rw [points_takeAll] at hp
  obtain ⟨key, hkey, hp⟩ := List.mem_flatMap.mp hp
  rw [pointsOf] at hp
  split at hp
  · rename_i first hfind
    obtain ⟨q, hq, rfl⟩ := List.mem_map.mp hp
    obtain ⟨o, -, block, i, hq⟩ := ProgramUnit.mem_points.mp hq
    obtain ⟨f, x, -, -, -, rfl⟩ := Operator.eq_of_point? hq
    have hfirst : first.key = key := by simpa using List.find?_some hfind
    subst hfirst
    exact ⟨List.mem_eraseDups.mp hkey, rfl⟩
  · cases hp

/-- After any records of units that are known by their identifiers, the finder has found what is
there to find without a cache.  The recorded functions stand in the order of their first
records.  Each has what a search finds in any unit that it was recorded of, with the tests of
all its records in their order.  A function that its unit does not have adds nothing, and no
point has a test of another function. -/
theorem points_takeAll_uncached (operators : List Operator) (h : AreIdentified records) :
    ((new operators).takeAll records).points
        = (records.map FinderRecord.key).eraseDups.flatMap (pointsOf operators records) ∧
      (∀ r ∈ records, pointsOf operators records r.key
        = (r.unit.scan operators r.function).map (·.withTests (testsOf records r.key))) ∧
      (∀ r ∈ records, r.unit.program.functions.length ≤ r.function →
        pointsOf operators records r.key = []) ∧
      ∀ p ∈ ((new operators).takeAll records).points,
        (p.moduleId, p.address.function) ∈ records.map FinderRecord.key ∧
          p.reachableTests = testsOf records (p.moduleId, p.address.function) := by
  refine ⟨points_takeAll operators records, fun r hr => pointsOf_key h hr, fun r hr hlen => ?_,
    fun p hp => tests_of_mem_points_takeAll hp⟩
  rw [pointsOf_key h hr, ProgramUnit.scan_of_le hlen, List.map_nil]

end Finder

/-- A unit under two paths, another unit of the same program, and a function that does not exist:
records of them take turns, and the two points in each unit have the tests of that unit. -/
theorem announcing_uncached :
    let unit : ProgramUnit := ⟨announcing, .source, "next.json", "m"⟩
    let copy : ProgramUnit := ⟨announcing, .test, "copy.json", "m"⟩
    let other : ProgramUnit := ⟨announcing, .source, "next.json", "n"⟩
    let records : List FinderRecord :=
      [⟨unit, 0, "one", 1⟩, ⟨other, 0, "one", 2⟩, ⟨unit, 7, "two", 1⟩, ⟨copy, 0, "two", 3⟩]
    let points := ((Finder.new Operator.all).takeAll records).points
    Finder.AreIdentified records ∧
      points.map (fun p => (p.moduleId, p.operator)) = [("m", .mathAdd), ("m", .removeVoidFunction),
        ("n", .mathAdd), ("n", .removeVoidFunction)] ∧
      ∀ p ∈ points, p.reachableTests = Finder.testsOf records (p.moduleId, p.address.function) := by
  intro unit copy other records points
  have hidentified : Finder.AreIdentified records := by
    intro r hr r' hr' _
    have hprogram : ∀ r ∈ records, r.unit.program = announcing := by decide
    rw [hprogram r hr, hprogram r' hr']
  obtain ⟨-, -, -, htests⟩ := Finder.points_takeAll_uncached Operator.all hidentified
  exact ⟨hidentified, by decide, fun p hp => (htests p hp).2⟩

end MutationAnalysis
