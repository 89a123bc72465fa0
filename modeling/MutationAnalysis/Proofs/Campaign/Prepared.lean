/-
What the units of a run are prepared to.

The identifier of a unit ends with the digest of its program.  As long as digests tell programs
apart, everything that preparation names after a unit can be traced back to the unit: a point to the
unit that it is in, and a key, a preserved body or a mutant to the point that they belong to.  So
nothing that is added to one unit clashes with what another one has, and prepared units can be
linked whenever the given ones can.

* `Engine.AreNew.areIdentified`: identifiers tell the programs of new units apart;
* `Engine.isOf_of_mem_mutated`: points are in the units that are prepared for them;
* `Engine.names_nodup_of_prepared`: the functions of prepared units have different names;
* `Engine.redirects_edit_of_prepared`: what prepared units do when one point's mutant is bound;
* `Engine.canLink_of_prepared`: prepared units can be linked with the cells of their keys.
-/
import MutationAnalysis.Proofs.Campaign.Coverage
import MutationAnalysis.Proofs.Campaign.Loaded
import MutationAnalysis.Proofs.Distinct
import MutationAnalysis.Proofs.Mutation.Identifier
import Mathlib.Data.List.Pairwise

namespace MutationAnalysis

open Digest

/-! ### Digests -/

theorem Text.Hex.length_digits (bytes : List UInt8) : (digits bytes).length = 2 * bytes.length := by
  induction bytes with
  | nil => rfl
  | cons b rest ih =>
    rw [digits, List.length_cons, List.length_cons, ih, List.length_cons]
    omega

theorem Digest.Md5.length_hexDigest (message : List UInt8) :
    (hexDigest message).toList.length = 32 := by
  rw [hexDigest, Text.Hex.encode, String.toList_ofList, Text.Hex.length_digits]
  rfl

/-! ### Units -/

/-- The identifiers of units tell their programs apart. -/
def Engine.AreIdentified (units : List ProgramUnit) : Prop :=
  ∀ u ∈ units, ∀ v ∈ units, u.identifier = v.identifier → u.program = v.program

instance (units : List ProgramUnit) : Decidable (Engine.AreIdentified units) :=
  inferInstanceAs (Decidable (∀ u ∈ units, ∀ v ∈ units, _ → _))

/-- Units that are made of programs whose digests tell them apart. -/
structure Engine.AreNew (units : List ProgramUnit) : Prop where
  eq_new : ∀ u ∈ units, u = .new u.program u.role u.path
  digest : ∀ u ∈ units, ∀ v ∈ units,
    Md5.hexDigest u.program.toBytes = Md5.hexDigest v.program.toBytes → u.program = v.program

namespace Engine

variable {e : Engine} {units prepared : List ProgramUnit} {tests : List Test}
  {baseline : List BaselineTest} {c : WorkerContext} {points : List MutationPoint}
  {keys : List String} {u v : ProgramUnit} {p q : MutationPoint}

namespace AreNew

/-- Texts that end with the identifiers of units end with the digests of their programs. -/
theorem program_eq (h : AreNew units) (hu : u ∈ units) (hv : v ∈ units) {xs ys : List Char}
    (heq : xs ++ u.identifier.toList = ys ++ v.identifier.toList) : u.program = v.program := by
  have hidentifier : ∀ w ∈ units, w.identifier.toList
      = ((ProgramUnit.stem w.path).toList ++ "_".toList)
        ++ (Md5.hexDigest w.program.toBytes).toList := by
    intro w hw
    rw [h.eq_new w hw, ProgramUnit.new, String.toList_append, String.toList_append]
  rw [hidentifier u hu, hidentifier v hv, ← List.append_assoc, ← List.append_assoc xs,
    ← List.append_assoc ys, ← List.append_assoc] at heq
  have hdigest := (List.append_inj' heq
    ((Md5.length_hexDigest _).trans (Md5.length_hexDigest _).symm)).2
  exact h.digest u hu v hv (String.toList_inj.mp hdigest)

theorem areIdentified (h : AreNew units) : AreIdentified units := fun _ hu _ hv heq =>
  h.program_eq hu hv (congrArg (fun s : String => [] ++ s.toList) heq)

/-- Points that agree in how their modules' names end are points of one program. -/
theorem program_eq_of_isOf (h : AreNew units) (hu : u ∈ units) (hv : v ∈ units) (hp : p.IsOf u)
    (hq : q.IsOf v) (heq : p.moduleId = q.moduleId ∨ p.key = q.key) : u.program = v.program := by
  rw [hp.exists_function.1, hq.exists_function.1] at heq
  rcases heq with heq | heq
  · exact h.areIdentified _ hu _ hv heq
  · rw [MutationPoint.key, MutationPoint.key, hp.exists_function.1, hq.exists_function.1,
      SymbolName.key, SymbolName.key] at heq
    have hchars := congrArg String.toList heq
    rw [String.toList_append, String.toList_append (s := q.function ++ "_")] at hchars
    exact h.program_eq hu hv hchars

/-- Where no function is in two units, units of one program that has a function are one unit. -/
theorem unit_eq (hnames : ((units.map (·.program)).flatMap Program.names).Nodup) (hu : u ∈ units)
    (hv : v ∈ units) (hp : p.IsOf u) (hprogram : u.program = v.program) : u = v := by
  obtain ⟨-, f, hf, -⟩ := hp.exists_function
  have hname : f.name ∈ u.program.names := List.mem_map_of_mem (List.mem_of_getElem? hf)
  rw [List.flatMap_map] at hnames
  obtain ⟨i, hi⟩ := List.mem_iff_getElem?.mp hu
  obtain ⟨j, hj⟩ := List.mem_iff_getElem?.mp hv
  obtain rfl := index_eq_of_nodup_flatMap hnames hi hj hname (hprogram ▸ hname)
  exact Option.some.inj (hi.symm.trans hj)

end AreNew

/-! ### Points -/

/-- The points of a list that a unit is prepared for. -/
def mutated (points : List MutationPoint) (u : ProgramUnit) : List MutationPoint :=
  if u.role = .source then u.own points else []

theorem mem_mutated : q ∈ mutated points u ↔
    u.role = .source ∧ q ∈ points ∧ q.moduleId = u.identifier := by
  rw [mutated]
  split
  · rename_i hrole
    rw [ProgramUnit.mem_own]
    exact ⟨fun h => ⟨hrole, h⟩, fun h => h.2⟩
  · rename_i hrole
    exact iff_of_false List.not_mem_nil fun h => hrole h.1

/-- The names that preparation adds to a unit are among those that it adds to all. -/
theorem generated_of_mutated {name : String} (hname : Program.generated (mutated points u) name) :
    Program.generated points name := by
  obtain ⟨q, hq, hname⟩ := hname
  exact ⟨q, (mem_mutated.mp hq).2.1, hname⟩

/-- Points are in the units that are prepared for them. -/
theorem isOf_of_mem_mutated (hbaseline : e.baseline units tests = .ok baseline)
    (hnew : AreNew units)
    (hnames : ((units.map (·.program)).flatMap Program.names).Nodup) (hu : u ∈ units)
    (hq : q ∈ mutated (findPoints e.operators units baseline) u) : q.IsOf u := by
  obtain ⟨-, hq, hmodule⟩ := mem_mutated.mp hq
  obtain ⟨v, hv, -, hof⟩ := exists_unit_of_mem_findPoints hbaseline hq
  have hprogram : v.program = u.program :=
    hnew.areIdentified v hv u hu (hof.exists_function.1.symm.trans hmodule)
  obtain rfl := AreNew.unit_eq hnames hv hu hof hprogram
  exact hof

/-- Points are in the units that are prepared for them, if no two
prepared functions share a name. -/
theorem isOf_of_prepareUnits (hprepares : prepareUnits points units = .ok (prepared, keys))
    (hpoints : ∀ q ∈ points, ∃ u ∈ units, u.role = .source ∧ q.IsOf u)
    (hnames : ((prepared.map (·.program)).flatMap Program.names).Nodup) (hu : u ∈ units)
    (hq : q ∈ mutated points u) : q.IsOf u := by
  obtain ⟨hrole, hq, hmodule⟩ := mem_mutated.mp hq
  obtain ⟨v, hv, hrole', hof⟩ := hpoints q hq
  obtain ⟨i, hi⟩ := List.mem_iff_getElem?.mp hu
  obtain ⟨j, hj⟩ := List.mem_iff_getElem?.mp hv
  have hprepared := prepareUnits_eq_ok hprepares
  obtain ⟨u', hi', hprepare⟩ := exists_right_of_getElem? hprepared hi
  obtain ⟨v', hj', hprepare'⟩ := exists_right_of_getElem? hprepared hj
  rw [if_pos hrole] at hprepare
  rw [if_pos hrole'] at hprepare'
  obtain ⟨keys, hprepare, -⟩ := hprepare
  obtain ⟨keys', hprepare', -⟩ := hprepare'
  -- both units are prepared for the point, so both have its mutant
  have hmutant := ProgramUnit.identifier_mem_names_of_prepare hprepare
    (ProgramUnit.mem_own.mpr ⟨hq, hmodule⟩)
  have hmutant' := ProgramUnit.identifier_mem_names_of_prepare hprepare'
    (ProgramUnit.mem_own.mpr ⟨hq, hof.exists_function.1⟩)
  rw [List.flatMap_map] at hnames
  obtain rfl := index_eq_of_nodup_flatMap hnames hi' hj' hmutant hmutant'
  obtain rfl := Option.some.inj (hi.symm.trans hj)
  exact hof

/-! ### Prepared units -/

/-- A unit that is prepared for points of its own, if it has any. -/
structure IsPreparedFor (points : List MutationPoint) (keys : List String) (u u' : ProgramUnit) :
    Prop where
  valid : u.program.IsValid
  valid' : u'.program.IsValid
  prepared : u.program.IsPrepared u.identifier (mutated points u) u'.program
  isOf : ∀ q ∈ mutated points u, q.IsOf u
  keys : ∀ q ∈ mutated points u, q.key ∈ keys

/-- What units are prepared to, for points that are theirs. -/
theorem isPreparedFor_of_prepareUnits (hprepares : prepareUnits points units = .ok (prepared, keys))
    (hvalid : ∀ u ∈ units, u.program.IsValid)
    (hof : ∀ u ∈ units, ∀ q ∈ mutated points u, q.IsOf u) :
    List.Forall₂ (IsPreparedFor points keys) units prepared := by
  refine forall₂_imp_of_mem (prepareUnits_eq_ok hprepares) fun u u' hu hprepare => ?_
  have hpoints := hof u hu
  split at hprepare
  · rename_i hrole
    rw [mutated, if_pos hrole] at hpoints
    obtain ⟨more, hprepare, hsub⟩ := hprepare
    obtain ⟨-, hvalid', hprepared, hkeys⟩ := ProgramUnit.prepared_of_isOf hpoints hprepare
    refine ⟨hvalid u hu, hvalid', ?_, ?_, ?_⟩ <;> rw [mutated, if_pos hrole]
    · exact hprepared
    · exact hpoints
    · exact fun q hq => hsub (hkeys q hq)
  · rename_i hrole
    rw [hprepare]
    refine ⟨hvalid u hu, hvalid u hu, ?_, ?_, ?_⟩ <;> rw [mutated, if_neg hrole]
    · exact Program.IsPrepared.nil
    · simp
    · simp

/-- What the units of a run are prepared to, whose points are theirs. -/
theorem GetsReady.isPreparedFor (h : e.GetsReady units tests baseline prepared c)
    (hof : ∀ u ∈ units, ∀ q ∈ mutated (findPoints e.operators units baseline) u, q.IsOf u) :
    List.Forall₂ (IsPreparedFor (findPoints e.operators units baseline) c.keys) units prepared :=
  isPreparedFor_of_prepareUnits h.prepares (isValid_of_validateUnits h.acceptsUnits) hof

/-- Every key of a run is that of a point. -/
theorem GetsReady.exists_point_of_mem_keys (h : e.GetsReady units tests baseline prepared c)
    (hof : ∀ u ∈ units, ∀ q ∈ mutated (findPoints e.operators units baseline) u, q.IsOf u)
    {key : String} (hkey : key ∈ c.keys) : ∃ q ∈ findPoints e.operators units baseline,
      key = q.key := by
  obtain ⟨u, hu, hrole, u', more, hprepare, hkey⟩ := exists_prepare_of_mem_keys h.prepares hkey
  have hpoints := hof u hu
  rw [mutated, if_pos hrole] at hpoints
  obtain ⟨-, -, -, hkeys⟩ := ProgramUnit.isPrepared_of_prepare (fun q hq => by
    obtain ⟨-, f, hf, -⟩ := (hpoints q hq).exists_function
    exact (List.getElem?_eq_some_iff.mp hf).1) hprepare
  obtain ⟨q, hq, f, hf, rfl⟩ := (hkeys key).mp hkey
  exact ⟨q, (ProgramUnit.mem_own.mp hq).1, ((hpoints q hq).key_eq hf).symm⟩

namespace IsPreparedFor

variable {u' : ProgramUnit} (h : IsPreparedFor points keys u u')
  (hcells : u.program.cells = [])
  (hfresh : ∀ name, Program.generated points name → ¬ u.program.Mentions name)

include h

theorem hasKeys : u.program.HasKeys u.identifier (mutated points u) :=
  fun q hq _ hf => (h.isOf q hq).key_eq hf

/-- The preserved bodies and the mutants of its points are among the
functions of a prepared unit. -/
theorem mem_names (hq : q ∈ mutated points u) : SymbolName.preserved q.key ∈ u'.program.names ∧
    q.identifier ∈ u'.program.names := by
  obtain ⟨f, hf, -, -, ⟨j, -, hpreserved⟩, m, hm, k, -, hmutant⟩ := h.prepared.stubbed q hq
  obtain ⟨g, -, rfl⟩ := Program.mutant_eq_ok.mp hm
  refine ⟨List.mem_map.mpr ⟨_, List.mem_of_getElem? hpreserved, ?_⟩,
    List.mem_map.mpr ⟨_, List.mem_of_getElem? hmutant, rfl⟩⟩
  rw [(h.isOf q hq).key_eq hf]
  rfl

/-- What a prepared unit has in addition are preserved bodies and mutants of its points. -/
theorem names_cases {name : String} (hname : name ∈ u'.program.names) : name ∈ u.program.names ∨
    ∃ q ∈ mutated points u, name = SymbolName.preserved q.key ∨ name = q.identifier := by
  obtain ⟨x, hx, rfl⟩ := List.mem_map.mp hname
  obtain ⟨j, hj⟩ := List.mem_iff_getElem?.mp hx
  rcases h.prepared.cases hj with hf | ⟨q, hq, f, rfl, hf, rfl⟩ | ⟨-, q, hq, f, hf, rfl | hmutant⟩
  · exact .inl (List.mem_map_of_mem (List.mem_of_getElem? hf))
  · exact .inl (List.mem_map.mpr ⟨f, List.mem_of_getElem? hf, rfl⟩)
  · refine .inr ⟨q, hq, .inl ?_⟩
    rw [(h.isOf q hq).key_eq hf]
    rfl
  · obtain ⟨g, -, rfl⟩ := Program.mutant_eq_ok.mp hmutant
    exact .inr ⟨q, hq, .inr rfl⟩

/-- A prepared unit calls through the cells of its points. -/
theorem exists_key_of_mem_cells (hcells : u.program.cells = []) {name : String}
    (hname : name ∈ u'.program.cells) : ∃ key ∈ keys, name = SymbolName.cell key := by
  obtain ⟨x, hx, hop, hcallee⟩ := Program.mem_cells.mp hname
  rcases h.prepared.callee_cases h.hasKeys hx hcallee with hx | ⟨-, q, hq, rfl⟩
  · have hmem : name ∈ u.program.cells := Program.mem_cells.mpr ⟨x, hx, hop, hcallee⟩
    rw [hcells] at hmem
    cases hmem
  · exact ⟨q.key, h.keys q hq, rfl⟩

include hcells hfresh

/-- A prepared unit does what the unit does that it is prepared from, with every
cell on its preserved body. -/
theorem redirects {holds : String → String → Prop}
    (hholds : ∀ q ∈ mutated points u, holds (SymbolName.cell q.key) (SymbolName.preserved q.key)) :
    u.program.Redirects u'.program holds (Program.generated points) :=
  h.prepared.redirects_self h.valid (h.valid.ne_callIndirect hcells) h.hasKeys
    (fun _ => generated_of_mutated) (fun name hmention hname => hfresh name hname hmention) hholds

/-- A prepared unit does what the unit does that is edited at a point, with the cell of the point on
its mutant, and every other cell on its preserved body. -/
theorem redirects_edit {holds : String → String → Prop} (hq : q ∈ mutated points u)
    (hmutant : holds (SymbolName.cell q.key) q.identifier)
    (hholds : ∀ k ∈ mutated points u, k.key ≠ q.key →
      holds (SymbolName.cell k.key) (SymbolName.preserved k.key)) :
    ∃ edited, u.program.editAt? q = some edited ∧
      edited.Redirects u'.program holds (Program.generated points) := by
  obtain ⟨f, hf, -, -, -, m, hm, -⟩ := h.prepared.stubbed q hq
  obtain ⟨g, hg, -⟩ := Program.mutant_eq_ok.mp hm
  have hedit := Program.editAt?_eq_some.mpr ⟨f, g, hf, hg, rfl⟩
  exact ⟨_, hedit, h.prepared.redirects_edit h.valid (h.valid.ne_callIndirect hcells) h.hasKeys
    (fun _ => generated_of_mutated) (fun name hmention hname => hfresh name hname hmention) hq hedit
    hmutant fun k hk hne =>
      hholds k hk (ProgramUnit.key_ne h.valid (h.isOf q hq) (h.isOf k hk) hne)⟩

/-- What a prepared unit asks for, the unit asks for, with the same signature. -/
theorem mem_undefinedSymbols {name : String} (hname : name ∈ u'.program.undefinedSymbols) :
    name ∈ u.program.undefinedSymbols ∧ u'.program.signature? name = u.program.signature? name := by
  have hredirects : u.program.Redirects u'.program (fun _ _ => True) (Program.generated points) :=
    h.redirects hcells hfresh fun _ _ => trivial
  obtain ⟨x, hx, hop, hcallee, hnone⟩ := Program.mem_undefinedSymbols.mp hname
  rcases h.prepared.callee_cases h.hasKeys hx hcallee with hx | ⟨hindirect, -⟩
  · have hnot := hredirects.not_fresh hx hcallee
    exact ⟨Program.mem_undefinedSymbols.mpr ⟨x, hx, hop, hcallee,
      (hredirects.function?_eq_none hnot).mp hnone⟩,
      hredirects.signature?_eq h.valid'.names_nodup hnot⟩
  · rw [hop] at hindirect
    cases hindirect

end IsPreparedFor

/-! ### All units -/

section

variable (h : List.Forall₂ (IsPreparedFor points keys) units prepared) (hnew : AreNew units)
  (hnames : ((units.map (·.program)).flatMap Program.names).Nodup)
  (hfresh : ∀ name, Program.generated points name → ∀ u ∈ units, ¬ u.program.Mentions name)

include h hnew hnames hfresh

/-- The functions of prepared units have different names. -/
theorem names_nodup_of_prepared : ((prepared.map (·.program)).flatMap Program.names).Nodup := by
  rw [List.flatMap_map, List.nodup_flatMap] at hnames ⊢
  refine ⟨fun u' hu' => ?_, pairwise_of_forall₂ h hnames.2 ?_⟩
  · obtain ⟨u, -, hu⟩ := exists_left_of_mem h hu'
    exact hu.valid'.names_nodup
  · intro u v u' v' hu hv hprepared hprepared' hdisjoint name hname hname'
    -- points of both units would be points of one program
    have hpoints : ∀ q ∈ mutated points u, ∀ k ∈ mutated points v,
        ¬ (q.moduleId = k.moduleId ∨ q.key = k.key) := by
      intro q hq k hk heq
      have hprogram := hnew.program_eq_of_isOf hu hv (hprepared.isOf q hq)
        (hprepared'.isOf k hk) heq
      obtain ⟨-, f, hf, -⟩ := (hprepared.isOf q hq).exists_function
      have hmem : f.name ∈ u.program.names := List.mem_map_of_mem (List.mem_of_getElem? hf)
      have hmem' : f.name ∈ v.program.names := hprogram ▸ hmem
      exact hdisjoint hmem hmem'
    have hold : ∀ w ∈ units, ∀ {k : MutationPoint}, k ∈ points → name ∈ w.program.names →
        ¬ (name = SymbolName.preserved k.key ∨ name = k.identifier) := by
      intro w hw k hk hmem heq
      obtain ⟨f, hf, hfname⟩ := List.mem_map.mp hmem
      exact hfresh name ⟨k, hk, .inr heq⟩ w hw (.inl ⟨f, hf, hfname⟩)
    rcases hprepared.names_cases hname with hname | ⟨q, hq, hname⟩ <;>
      rcases hprepared'.names_cases hname' with hname' | ⟨k, hk, hname'⟩
    · exact hdisjoint hname hname'
    · exact hold u hu (mem_mutated.mp hk).2.1 hname hname'
    · exact hold v hv (mem_mutated.mp hq).2.1 hname' hname
    · rcases hname with rfl | rfl <;> rcases hname' with heq | heq
      · exact hpoints q hq k hk (.inr (SymbolName.preserved_injective heq))
      · exact k.identifier_ne_preserved q.key heq.symm
      · exact q.identifier_ne_preserved k.key heq
      · exact hpoints q hq k hk (.inl (MutationPoint.identifierOf_injective heq).1)

omit hnew hnames

section

variable (hcells : ∀ u ∈ units, u.program.cells = [])

include hcells

/-- Prepared units stand for the given ones. -/
theorem redirects_of_prepared : List.Forall₂ (fun u u' =>
    u.program.Redirects u'.program (fun _ _ => True) (Program.generated points)) units prepared :=
  forall₂_imp_of_mem h fun u _ hu hprepared =>
    hprepared.redirects (hcells u hu) (fun name hname => hfresh name hname _ hu) fun _ _ => trivial

/-- Prepared units stand for the given ones with one of them edited at a point, where the cell of
the point holds its mutant and all others hold preserved bodies. -/
theorem redirects_edit_of_prepared {holds : String → String → Prop}
    (hnames : ((prepared.map (·.program)).flatMap Program.names).Nodup) {i : Nat}
    (hi : units[i]? = some u) (hq : q ∈ mutated points u)
    (hmutant : holds (SymbolName.cell q.key) q.identifier)
    (hholds : ∀ key ∈ keys, key ≠ q.key → holds (SymbolName.cell key) (SymbolName.preserved key)) :
    ∃ edited, u.program.editAt? q = some edited ∧ List.Forall₂ (fun v v' =>
      v.program.Redirects v'.program holds (Program.generated points))
        (units.set i { u with program := edited }) prepared := by
  have hfresh' : ∀ v ∈ units, ∀ name, Program.generated points name → ¬ v.program.Mentions name :=
    fun v hv name hname => hfresh name hname v hv
  have hu := List.mem_of_getElem? hi
  obtain ⟨u', hi', hprepared⟩ := exists_right_of_getElem? h hi
  obtain ⟨edited, hedit, hself⟩ := hprepared.redirects_edit (hcells u hu) (hfresh' u hu) hq hmutant
    fun k hk => hholds k.key (hprepared.keys k hk)
  refine ⟨edited, hedit, forall₂_set h (fun v' hv' => ?_) fun j v v' hne hj hj' hprepared' => ?_⟩
  · obtain rfl := Option.some.inj (hi'.symm.trans hv')
    exact hself
  · have hv := List.mem_of_getElem? hj
    refine hprepared'.redirects (hcells v hv) (hfresh' v hv) fun k hk => ?_
    refine hholds k.key (hprepared'.keys k hk) fun heq => hne ?_
    -- a point with the same key would have the same preserved body
    rw [List.flatMap_map] at hnames
    exact index_eq_of_nodup_flatMap hnames hj' hi' (hprepared'.mem_names hk).1
      (heq ▸ (hprepared.mem_names hq).1)

/-- Tests keep their entries. -/
theorem hasEntry_of_prepared {test : Test} (hentry : test.HasEntry (units.map (·.program))) :
    test.HasEntry (prepared.map (·.program)) := by
  refine hentry.transfer fun p hp f hf => ?_
  obtain ⟨u, hu, rfl⟩ := List.mem_map.mp hp
  obtain ⟨u', hu', hr⟩ := exists_right_of_mem (redirects_of_prepared h hfresh hcells) hu
  obtain ⟨i, hi⟩ := List.mem_iff_getElem?.mp hf
  obtain ⟨g, hg, hname, hsignature⟩ := hr.exists_function hi
  exact ⟨u'.program, List.mem_map_of_mem hu', g, List.mem_of_getElem? hg, hname, hsignature⟩

end

/-- Prepared units can be linked with the cells of their keys if the given ones can be linked. -/
theorem canLink_of_prepared {pages : Nat} (hlink : Image.CanLink pages [] (units.map (·.program)))
    (hnew : AreNew units) : Image.CanLink pages keys (prepared.map (·.program)) := by
  have hcells : ∀ u ∈ units, u.program.cells = [] := fun u hu =>
    hlink.cells_eq_nil (List.mem_map_of_mem hu)
  have hredirects := redirects_of_prepared h hfresh hcells
  refine ⟨hlink.pages_le, fun hne => hlink.pages_pos ?_,
    names_nodup_of_prepared h hnew hlink.names_nodup hfresh, fun p hp name hname => ?_,
    fun p hp name hname => ?_⟩
  · cases h with
    | nil => exact hne
    | cons => simp
  · obtain ⟨u', hu', rfl⟩ := List.mem_map.mp hp
    obtain ⟨u, hu, hprepared⟩ := exists_left_of_mem h hu'
    exact hprepared.exists_key_of_mem_cells (hcells u hu) hname
  · obtain ⟨u', hu', rfl⟩ := List.mem_map.mp hp
    obtain ⟨u, hu, hprepared⟩ := exists_left_of_mem h hu'
    obtain ⟨hname, hsignature⟩ :=
      hprepared.mem_undefinedSymbols (hcells u hu) (fun name hname => hfresh name hname u hu) hname
    rw [hsignature]
    refine (hlink.calls u.program (List.mem_map_of_mem hu) name hname).imp_left fun hmem => ?_
    rw [List.flatMap_map, List.mem_flatMap] at hmem ⊢
    obtain ⟨v, hv, hmem⟩ := hmem
    obtain ⟨v', hv', hr⟩ := exists_right_of_mem hredirects hv
    exact ⟨v', hv', hr.names_subset hmem⟩

end

end Engine

end MutationAnalysis
