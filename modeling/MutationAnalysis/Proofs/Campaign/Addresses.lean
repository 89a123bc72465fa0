/-
Where preparation moves functions to.

Preparation adds functions at the end of a unit, and addresses are given out unit after unit.  So
the functions of a unit keep their places within it, and all of them move by as many addresses as
functions were added to the units before it: one for each function that is mutated and one for each
point.  A number that stands for a function in the given units stands for it in the prepared units
only if no unit before the function's is mutated.

* `ProgramUnit.names_append_of_prepare`: how many functions a unit gets;
* `Engine.address?_of_load`: the address of a function, by the functions before it;
* `Engine.address?_of_prepareUnits`: the address of a function in the prepared units.
-/
import MutationAnalysis.Proofs.Campaign.Loaded
import MutationAnalysis.Proofs.Campaign.Parallel
import MutationAnalysis.Proofs.Campaign.Run
import MutationAnalysis.Proofs.Image.AddressSpace
import MutationAnalysis.Proofs.Unit.Names
import Mathlib.Data.List.Dedup

namespace MutationAnalysis

/-! ### The functions that preparation adds -/

/-- There is one group for each function that has points. -/
theorem PointGroup.length_ofPoints (points : List MutationPoint) :
    (ofPoints points).length = (points.map (·.address.function)).dedup.length := by
  have hcollects := collects_ofPoints points
  -- groups differ in their functions, so their functions are those of the points, each once
  have hperm : ((ofPoints points).map (·.function)).Perm
      (points.map (·.address.function)).dedup := by
    refine (List.perm_ext_iff_of_nodup hcollects.nodup (List.nodup_dedup _)).mpr fun i => ?_
    rw [List.mem_dedup, List.mem_map, List.mem_map]
    constructor
    · rintro ⟨g, hg, rfl⟩
      obtain ⟨q, hq, heq⟩ := hcollects.exists_point hg
      exact ⟨q, hq, heq⟩
    · rintro ⟨q, hq, rfl⟩
      obtain ⟨g, hg, -, heq⟩ := hcollects.exists_group hq
      exact ⟨g, hg, heq.symm⟩
  rw [← hperm.length_eq, List.length_map]

namespace ProgramUnit

variable {unit unit' : ProgramUnit} {points : List MutationPoint} {keys : List String}

/-- How many functions preparation adds to a unit: the preserved body of each function that is
mutated, and the mutant of each point. -/
def addedCount (points : List MutationPoint) (unit : ProgramUnit) : Nat :=
  if unit.role = .source then
    ((unit.own points).map (·.address.function)).dedup.length + (unit.own points).length
  else 0

theorem addedCount_eq_zero :
    unit.addedCount points = 0 ↔ (unit.role = .source → unit.own points = []) := by
  rw [addedCount]
  by_cases hsource : unit.role = .source
  · rw [if_pos hsource]
    constructor
    · intro h _
      exact List.length_eq_zero_iff.mp (by omega)
    · intro h
      rw [h hsource]
      rfl
  · rw [if_neg hsource]
    exact iff_of_true rfl fun h => absurd h hsource

/-- The functions that preparation adds come after those that the unit has. -/
theorem names_append_of_prepare (h : unit.prepare points = (unit', .ok keys)) :
    ∃ added, unit'.program.names = unit.program.names ++ added ∧
      added.length = ((unit.own points).map (·.address.function)).dedup.length
        + (unit.own points).length := by
  obtain ⟨-, -, hgroups⟩ := prepare_eq_ok h
  obtain ⟨hlength, added, hnames, hperm⟩ := Program.names_prepareGroups_ofPoints hgroups
  refine ⟨added, hnames, ?_⟩
  rw [hperm.length_eq, List.length_append, List.length_map, List.length_map, hlength,
    PointGroup.length_ofPoints]

end ProgramUnit

/-! ### Addresses -/

/-- Where an item of a part stands among the items of all parts. -/
theorem getElem?_flatMap_of_take {α β : Type} {parts : List α} {items : α → List β}
    {j i : Nat} {x : α} {y : β} (hx : parts[j]? = some x) (hy : (items x)[i]? = some y) :
    (parts.flatMap items)[((parts.take j).map fun x => (items x).length).sum + i]? = some y := by
  obtain ⟨hi, -⟩ := List.getElem?_eq_some_iff.mp hy
  induction parts generalizing j with
  | nil => cases hx
  | cons a rest ih =>
    rw [List.flatMap_cons]
    cases j with
    | zero =>
      obtain rfl := Option.some.inj hx
      rw [List.take_zero, List.map_nil, List.sum_nil, Nat.zero_add,
        List.getElem?_append_left hi, hy]
    | succ j =>
      rw [List.take_succ_cons, List.map_cons, List.sum_cons, Nat.add_assoc,
        List.getElem?_append_right (Nat.le_add_right _ _), Nat.add_sub_cancel_left]
      exact ih hx

namespace Engine

variable {units prepared : List ProgramUnit} {objects objects' : List Object}
  {probed probed' : Bool}
  {resolve resolve' : Resolver} {start start' l l' : Loader} {points : List MutationPoint}
  {keys : List String} {u : ProgramUnit} {f : Function} {i j : Nat}

/-- The functions of units have addresses in order, from one on. -/
theorem address?_of_load {name : String} (hcompile : compileUnits units probed = .ok objects)
    (hload : start.load objects resolve = (l, .ok ())) (hu : units[j]? = some u)
    (hname : u.program.names[i]? = some name) : l.address? name
      = some (((units.take j).map fun v => v.program.names.length).sum + i + 1) := by
  obtain ⟨image, natives, himage, hlinked⟩ := Loader.exists_isLinked_of_load hload
  have haddress : l.address? name = image.address? name := by
    rw [Loader.address?, himage]
    rfl
  rw [haddress, hlinked.address?_eq_some,
    Image.names_of_represent (represent_of_compileUnits hcompile), List.flatMap_map]
  exact ⟨_, getElem?_flatMap_of_take hu hname, rfl⟩

/-- Every unit keeps its functions in their places, and what is added to it comes after them. -/
theorem names_append_of_prepareUnits (h : prepareUnits points units = .ok (prepared, keys)) :
    List.Forall₂ (fun u u' => ∃ added, u'.program.names = u.program.names ++ added ∧
      added.length = u.addedCount points) units prepared := by
  refine (prepareUnits_eq_ok h).imp fun u u' hu => ?_
  rw [ProgramUnit.addedCount]
  by_cases hsource : u.role = .source
  · rw [if_pos hsource] at hu ⊢
    obtain ⟨more, hprepare, -⟩ := hu
    exact ProgramUnit.names_append_of_prepare hprepare
  · rw [if_neg hsource] at hu ⊢
    exact ⟨[], by rw [hu, List.append_nil], rfl⟩

theorem sum_lengths_of_prepareUnits (h : prepareUnits points units = .ok (prepared, keys))
    (j : Nat) : ((prepared.take j).map fun v => v.program.names.length).sum
      = ((units.take j).map fun v => v.program.names.length).sum
        + ((units.take j).map fun v => v.addedCount points).sum := by
  have hnames := names_append_of_prepareUnits h
  clear h
  -- induction on the units, of which the first one comes before the others by all its functions
  induction hnames generalizing j with
  | nil => rw [List.take_nil]; rfl
  | cons hu _ ih =>
    cases j with
    | zero => rfl
    | succ j =>
      obtain ⟨added, hnames, hlength⟩ := hu
      simp only [List.take_succ_cons, List.map_cons, List.sum_cons, hnames,
        List.length_append, hlength]
      rw [ih]
      omega

/-- A function of a unit moves, when the units are prepared, by as many addresses as functions are
added to the units before its own.  So it keeps its address exactly if none of them is mutated. -/
theorem address?_of_prepareUnits (hprepare : prepareUnits points units = .ok (prepared, keys))
    (hcompile : compileUnits units probed = .ok objects)
    (hcompile' : compileUnits prepared probed' = .ok objects')
    (hload : start.load objects resolve = (l, .ok ()))
    (hload' : start'.load objects' resolve' = (l', .ok ()))
    (hu : units[j]? = some u) (hf : u.program.functions[i]? = some f) :
    ∃ a, l.address? f.name = some a ∧
      l'.address? f.name = some (a + ((units.take j).map fun v => v.addedCount points).sum) ∧
      (l'.address? f.name = l.address? f.name ↔
        ∀ v ∈ units.take j, v.role = .source → v.own points = []) := by
  obtain ⟨u', hu', added, hnames, -⟩ :=
    exists_right_of_getElem? (names_append_of_prepareUnits hprepare) hu
  have hname : u.program.names[i]? = some f.name := by
    rw [Program.names, List.getElem?_map, hf]
    rfl
  have hname' : u'.program.names[i]? = some f.name := by
    rw [hnames, List.getElem?_append_left (List.getElem?_eq_some_iff.mp hname).1, hname]
  have haddress := address?_of_load hcompile hload hu hname
  have haddress' := address?_of_load hcompile' hload' hu' hname'
  rw [sum_lengths_of_prepareUnits hprepare] at haddress'
  refine ⟨_, haddress, ?_, ?_⟩
  · rw [haddress']
    congr 1
    omega
  · have hsum : ((units.take j).map fun v => v.addedCount points).sum = 0 ↔
        ∀ v ∈ units.take j, v.role = .source → v.own points = [] := by
      rw [List.sum_eq_zero_iff_forall_eq_nat, List.forall_mem_map]
      simp only [ProgramUnit.addedCount_eq_zero]
    rw [haddress, haddress', ← hsum, Option.some.injEq]
    omega

end Engine

/-! ### A test that registers an address -/

/-- A test that doubles a number and has a function called at its end,
which it knows by its address. -/
def cleanupTest : Program where
  functions := [
    { name := "check", numParams := 0, numLocals := 3, returnType := .int
      blocks := [⟨[⟨.loadConst, some 0, [.immediate (.int 3)], none⟩,
        ⟨.call, some 1, [.symbol "atexit", .register 0], none⟩,
        ⟨.call, some 1, [.symbol "double", .register 0], none⟩,
        ⟨.loadConst, some 2, [.immediate (.int 0)], none⟩, .returning (some 2)]⟩] },
    { name := "cleanup", numParams := 0, numLocals := 2, returnType := .void
      blocks := [⟨[⟨.loadConst, some 0, [.immediate (.int 100)], none⟩,
        ⟨.call, some 1, [.symbol "putchar", .register 0], none⟩, .returning none]⟩] }]
  declarations := [⟨"double", 1, .int⟩, ⟨"atexit", 1, .int⟩, ⟨"putchar", 1, .int⟩]
  constructors := []
  version := 1

def cleanupUnits : List ProgramUnit :=
  [⟨doubling, .source, "double.json", "m"⟩, ⟨cleanupTest, .test, "test.json", "n"⟩]

/-- The addition made a subtraction, of which the test takes no notice. -/
def cleanupPoints : List MutationPoint :=
  Engine.findPoints [.mathAdd] cleanupUnits [⟨.new "cleans_up" "check" [], [(0, 0, 1)]⟩]

/-- The units with their keys, prepared for the point. -/
def cleanupPrepared : List ProgramUnit × List String :=
  (Engine.prepareUnits cleanupPoints cleanupUnits).toOption.getD ([], [])

def cleanupObjects (units : List ProgramUnit) : List Object :=
  (Engine.compileUnits units false).toOption.getD []

/-- A loader with a cell for the function that is mutated. -/
def cleanupLoader : Loader := { Loader.new ⟨1, 8⟩ with cells := #[0] }

def cleanupResolver : Resolver :=
  .chain [.overrides, .hostProcess, .ofList [(SymbolName.cell "double_m", .cell ⟨0, 0⟩)]]

/-- One body is preserved and one mutant made in the unit before that of the test, whose
functions move by two addresses. -/
theorem cleanup_moves : ∃ prepared keys objects objects' l l',
    Engine.prepareUnits cleanupPoints cleanupUnits = .ok (prepared, keys) ∧
      Engine.compileUnits cleanupUnits false = .ok objects ∧
      Engine.compileUnits prepared false = .ok objects' ∧
      cleanupLoader.load objects cleanupResolver = (l, .ok ()) ∧
      cleanupLoader.load objects' cleanupResolver = (l', .ok ()) ∧
      l.address? "cleanup" = some 3 ∧ l'.address? "cleanup" = some 5 := by
  have hprepare : Engine.prepareUnits cleanupPoints cleanupUnits = .ok cleanupPrepared :=
    eq_ok_of_isOk (by decide +kernel) _
  have hcompile : Engine.compileUnits cleanupUnits false = .ok (cleanupObjects cleanupUnits) :=
    eq_ok_of_isOk (by decide +kernel) _
  have hcompile' : Engine.compileUnits cleanupPrepared.1 false
      = .ok (cleanupObjects cleanupPrepared.1) :=
    eq_ok_of_isOk (by decide +kernel) _
  have hload : cleanupLoader.load (cleanupObjects cleanupUnits) cleanupResolver
      = ((cleanupLoader.load (cleanupObjects cleanupUnits) cleanupResolver).1, .ok ()) :=
    Prod.ext rfl (eq_ok_of_isOk (by decide +kernel) ())
  have hload' : cleanupLoader.load (cleanupObjects cleanupPrepared.1) cleanupResolver
      = ((cleanupLoader.load (cleanupObjects cleanupPrepared.1) cleanupResolver).1, .ok ()) :=
    Prod.ext rfl (eq_ok_of_isOk (by decide +kernel) ())
  have hunit : cleanupUnits[1]? = some ⟨cleanupTest, .test, "test.json", "n"⟩ := rfl
  obtain ⟨f, hf, hname⟩ : ∃ f, cleanupTest.functions[1]? = some f ∧ f.name = "cleanup" :=
    ⟨_, rfl, rfl⟩
  obtain ⟨a, ha, ha', -⟩ :=
    Engine.address?_of_prepareUnits hprepare hcompile hcompile' hload hload' hunit hf
  have haddress : (cleanupLoader.load (cleanupObjects cleanupUnits) cleanupResolver).1.address?
      "cleanup"
      = some 3 := by
    decide +kernel
  have hadded : ((cleanupUnits.take 1).map fun v => v.addedCount cleanupPoints).sum = 2 := by
    decide +kernel
  rw [hname] at ha ha'
  obtain rfl : a = 3 := Option.some.inj (ha.symm.trans haddress)
  rw [hadded] at ha'
  exact ⟨_, _, _, _, _, _, hprepare, hcompile, hcompile', hload, hload', ha, ha'⟩

/-- What running the test needs, of units and of the keys of their mutated functions. -/
def cleanupContext (units : List ProgramUnit) (keys : List String) : WorkerContext :=
  ⟨⟨1, 8⟩, cleanupObjects units, keys, [.new "cleans_up" "check" []], .fork, .default⟩

/-- Where the function that cleans up is, and what the test says, when every
cell is on the preserved body. -/
def cleanupAnswer (c : WorkerContext) : Option (Option Nat × Status × String) :=
  c.setup.toOption.map fun (_, l) =>
    let e := (c.runTest l "cleans_up").1
    (l.address? "cleanup", e.status, e.output)

/-- In the prepared units address three, which the test registers, is that of the mutant, and the
test crashes although no mutant is bound. -/
theorem cleanup_displaced :
    cleanupAnswer (cleanupContext cleanupUnits []) = some (some 3, .passed, "d") ∧
      cleanupAnswer (cleanupContext cleanupPrepared.1 cleanupPrepared.2)
        = some (some 5, .crashed, "") := by
  decide +kernel

end MutationAnalysis
