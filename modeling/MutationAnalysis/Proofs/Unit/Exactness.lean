/-
Preparation builds exactly what it promises.

Points that operators make in a unit can all be prepared at once, in whatever order they come,
and the program that comes of it is the unit's with a stub for each function that points are in,
with that function's body under its preserved name, with a mutant for each point, and with
nothing else.  Each of these is accepted where the function is: a stub whatever its function
does, a preserved body because it is the function's, and a mutant because an operator that
applies keeps a function accepted.

* `Program.exists_prepareGroups`: groups that are ready can be prepared;
* `Program.IsPrepared.validate`: what a program is prepared to is accepted;
* `ProgramUnit.prepare_exactly`: what a unit is prepared to.
-/
import MutationAnalysis.Proofs.Mutation.Discovery
import MutationAnalysis.Proofs.Mutation.Identifier
import MutationAnalysis.Proofs.Mutation.Validity
import MutationAnalysis.Proofs.Unit.Names

namespace MutationAnalysis

/-! ### Stubs -/

namespace Function

/-- A function that hands its parameters to the function whose address a cell holds, and
gives back what that one gives. -/
structure PassesTo (g f : Function) (cell : String) : Prop where
  name_eq : g.name = f.name
  numParams_eq : g.numParams = f.numParams
  returnType_eq : g.returnType = f.returnType
  blocks_eq : ∃ (arguments : List Register) (given : Option Register),
    arguments.map (·.toNat) = List.range f.numParams.toNat ∧
    given.map (·.toNat) = (if f.returnType = .int then some f.numParams.toNat else none) ∧
    g.blocks = [⟨[.throughCell cell arguments given, .returning given]⟩]

variable {f : Function} {cell : String}

theorem stub_passesTo (h : f.numParams.toNat ≤ 255) : (f.stub cell).PassesTo f cell := by
  refine ⟨rfl, rfl, rfl, (List.range f.numParams.toNat).map UInt8.ofNat,
    if f.returnType = .int then some f.numParams.toUInt8 else none, ?_, ?_, rfl⟩
  · rw [List.map_map]
    refine (List.map_congr_left fun n hn => ?_).trans (List.map_id _)
    have hlt := List.mem_range.mp hn
    show (UInt8.ofNat n).toNat = n
    rw [UInt8.toNat_ofNat']
    omega
  · have hresult : f.numParams.toUInt8.toNat = f.numParams.toNat := by
      rw [UInt64.toNat_toUInt8]
      omega
    split
    · rw [Option.map_some, hresult]
    · rfl

/-- A stub is accepted wherever it stands. -/
theorem PassesTo.isAccepted {g : Function} {p : Program} (h : g.PassesTo f cell)
    (hparams : f.numParams.toNat ≤ 255) : g.IsAccepted p := by
  obtain ⟨arguments, given, -, hgiven, hblocks⟩ := h.blocks_eq
  -- a stub is a call through the cell and a return of what it gives
  have hcall : (Instruction.throughCell cell arguments given).Fits p g := by
    refine .callIndirect fun a ha => ?_
    obtain ⟨r, -, rfl⟩ := List.mem_map.mp ha
    rfl
  have hreturn : (Instruction.returning given).Fits p g := by
    cases given with
    | none =>
      refine .retNothing ?_
      rw [h.returnType_eq]
      cases hf : f.returnType with
      | void => rfl
      | int =>
        rw [hf] at hgiven
        cases hgiven
    | some r =>
      refine .retValue ?_ rfl
      rw [h.returnType_eq]
      cases hf : f.returnType with
      | void =>
        rw [hf] at hgiven
        cases hgiven
      | int => rfl
  refine ⟨h.numParams_eq ▸ hparams, by rw [hblocks]; simp, fun b hb => ?_, fun i hi => ?_⟩
  · rw [hblocks, List.mem_singleton] at hb
    exact ⟨1, by rw [hb]; rfl⟩
  · rw [instructions, hblocks, List.flatMap_singleton, List.mem_cons, List.mem_singleton] at hi
    rcases hi with rfl | rfl
    · exact hcall
    · exact hreturn

end Function

/-! ### Preparing groups -/

namespace Program

variable {p p' p₁ : Program} {moduleId : String} {groups more : List PointGroup} {g : PointGroup}
  {points : List MutationPoint} {keys : List String} {f : Function}

theorem exists_addMutants (hpoints : ∀ q ∈ points, ∃ m, q.mutant f = .ok m) (p : Program) :
    ∃ p', addMutants f p points = (p', .ok ()) := by
  induction points generalizing p with
  | nil => exact ⟨p, rfl⟩
  | cons q rest ih =>
    obtain ⟨⟨m, hm⟩, hrest⟩ := List.forall_mem_cons.mp hpoints
    rw [addMutants, hm]
    exact ih hrest _

/-- A group whose points are in a function that a stub can stand for,
and whose edits can be made. -/
def CanPrepare (p : Program) (g : PointGroup) : Prop :=
  ∃ f, p.functions[g.function]? = some f ∧ f.numParams.toNat ≤ 255 ∧
    ∀ q ∈ g.points, ∃ m, q.mutant f = .ok m

theorem CanPrepare.exists_prepareGroup (h : p.CanPrepare g) :
    ∃ p' key, p.prepareGroup moduleId g = (p', .ok key) := by
  obtain ⟨f, hf, hparams, hpoints⟩ := h
  have hfew : ¬ maxParams < f.numParams := UInt64.not_lt.mpr (UInt64.le_iff_toNat_le.mpr hparams)
  obtain ⟨p', hp'⟩ := exists_addMutants hpoints
    (p.addFunction { f with name := SymbolName.preserved (SymbolName.key f.name moduleId) })
  rw [prepareGroup, hf]
  dsimp only
  rw [if_neg hfew, hp']
  exact ⟨_, _, rfl⟩

/-- Groups of different functions can be prepared one after the other, since preparing one leaves
the functions of the others alone. -/
theorem exists_prepareGroups (h : p.IsPreparedBy moduleId groups p₁)
    (hnodup : ((groups ++ more).map (·.function)).Nodup) (hmore : ∀ g ∈ more, p.CanPrepare g)
    (keys : List String) : ∃ p' keys', p₁.prepareGroups moduleId keys more = ⟨p', .ok keys'⟩ := by
  induction more generalizing groups p₁ keys with
  | nil => exact ⟨p₁, keys, rfl⟩
  | cons g rest ih =>
    obtain ⟨⟨f, hf, hready⟩, hrest⟩ := List.forall_mem_cons.mp hmore
    have hsplit : groups ++ g :: rest = groups ++ [g] ++ rest := by
      rw [List.append_assoc]
      rfl
    rw [hsplit] at hnodup
    have hnew : g.function ∉ groups.map (·.function) := by
      rw [List.map_append, List.map_append, List.append_assoc, List.nodup_append] at hnodup
      exact fun hmem => hnodup.2.2 _ hmem _ (by simp) rfl
    obtain ⟨p₂, key, hgroup⟩ : ∃ p₂ key, p₁.prepareGroup moduleId g = (p₂, .ok key) :=
      CanPrepare.exists_prepareGroup ⟨f, h.kept _ f hf hnew, hready⟩
    obtain ⟨hnext, -⟩ := isPreparedBy_prepareGroup h hnew (List.getElem?_eq_some_iff.mp hf).1 hgroup
    rw [prepareGroups, hgroup]
    exact ih hnext hnodup hrest _

/-! ### Validity -/

/-- A point that an operator makes in a program. -/
def Makes (p : Program) (q : MutationPoint) : Prop :=
  ∃ f i, p.functions[q.address.function]? = some f ∧
    f.instruction? q.address.block q.address.instruction = some i ∧ q.operator.applies p i = true

theorem Makes.exists_mutant {q : MutationPoint} (h : p.Makes q)
    (hf : p.functions[q.address.function]? = some f) : ∃ m, q.mutant f = .ok m := by
  obtain ⟨f', i, hf', hi, happlies⟩ := h
  obtain rfl := Option.some.inj (hf.symm.trans hf')
  obtain ⟨g, hg⟩ := Operator.exists_apply hi happlies
  exact ⟨_, mutant_eq_ok.mpr ⟨g, hg, rfl⟩⟩

theorem Makes.isAccepted {q : MutationPoint} {m : Function} (h : p.Makes q)
    (hp : p.validate = .ok ())
    (hf : p.functions[q.address.function]? = some f) (hm : q.operator.apply q.address f = .ok m) :
    m.IsAccepted p := by
  obtain ⟨f', i, hf', hi, happlies⟩ := h
  obtain rfl := Option.some.inj (hf.symm.trans hf')
  exact ((validate_eq_ok.mp hp).2.1 f (List.mem_of_getElem? hf)).apply hi happlies hm

/-- In the place of a function stands one of its name and signature. -/
theorem IsPrepared.exists_function (h : p.IsPrepared moduleId points p') {i : Nat}
    (hf : p.functions[i]? = some f) :
    ∃ g, p'.functions[i]? = some g ∧ g.name = f.name ∧ g.signature = f.signature := by
  by_cases hpoint : ∃ q ∈ points, q.address.function = i
  · obtain ⟨q, hq, rfl⟩ := hpoint
    obtain ⟨f', hf', -, hstub, -⟩ := h.stubbed q hq
    obtain rfl := Option.some.inj (hf.symm.trans hf')
    exact ⟨_, hstub, rfl, rfl⟩
  · exact ⟨f, h.kept i f hf fun q hq heq => hpoint ⟨q, hq, heq⟩, rfl, rfl⟩

/-- What a program is prepared to is accepted, if nothing that is added has the name of something
that is there or that is called. -/
theorem IsPrepared.validate (h : p.IsPrepared moduleId points p') (hp : p.validate = .ok ())
    (hpoints : ∀ q ∈ points, p.Makes q) {added : List String} (hnames : p'.names = p.names ++ added)
    (hnodup : p'.names.Nodup)
    (hcallee : ∀ i ∈ p.instructions, ∀ name, i.callee = some name → name ∉ added) :
    p'.validate = .ok () := by
  obtain ⟨-, hfunctions, hconstructors⟩ := validate_eq_ok.mp hp
  have hdeclarations : p'.declarations = p.declarations := by rw [h.others]
  -- nothing that is called has a name that is added, so callees are what they were
  have hsignature : ∀ i ∈ p.instructions, ∀ name s, i.callee = some name →
      p.signature? name = some s → p'.signature? name = some s := by
    intro i hi name s hname hs
    rw [← hs]
    exact signature?_congr hnodup hdeclarations
      (functionIndex?_append hnames (hcallee i hi name hname))
      fun _ _ hf => h.exists_function hf
  have hcalls : ∀ {i : Nat} {f : Function}, p.functions[i]? = some f → ∀ x ∈ f.instructions,
      ∀ name s, x.callee = some name → p.signature? name = some s → p'.signature? name = some s :=
    fun hf x hx => hsignature x (List.mem_flatMap.mpr ⟨_, List.mem_of_getElem? hf, hx⟩)
  refine validate_eq_ok.mpr ⟨hnodup, fun x hx => ?_, fun name hname => ?_⟩
  · obtain ⟨j, hj⟩ := List.mem_iff_getElem?.mp hx
    -- a function is one that was there, a stub, or an added body: the preserved one or a mutant
    rcases h.cases hj with hf | ⟨q, hq, f, rfl, hf, rfl⟩ | ⟨-, q, hq, f, hf, rfl | hmutant⟩
    · exact (hfunctions x (List.mem_of_getElem? hf)).transfer rfl rfl rfl (hcalls hf)
    · have hparams := (hfunctions f (List.mem_of_getElem? hf)).numParams_le
      exact (Function.stub_passesTo hparams).isAccepted hparams
    · exact (hfunctions f (List.mem_of_getElem? hf)).transfer rfl rfl rfl (hcalls hf)
    · obtain ⟨m, hm, rfl⟩ := mutant_eq_ok.mp hmutant
      refine ((hpoints q hq).isAccepted hp hf hm).transfer rfl rfl rfl fun x hx name s hname => ?_
      rcases Operator.mem_instructions_of_apply hm hx with hx | hnone
      · exact hcalls hf x hx name s hname
      · rw [hnone] at hname
        cases hname
  · rw [h.others] at hname
    exact exists_constructor hnodup (fun _ _ => h.exists_function) (hconstructors name hname)

end Program

/-! ### Units -/

namespace ProgramUnit

variable {unit unit' : ProgramUnit} {points : List MutationPoint} {keys : List String}
  {q : MutationPoint}

/-- A point that is of a unit is one that its operator makes there. -/
theorem makes_of_isOf (h : q.IsOf unit) : unit.program.Makes q := by
  obtain ⟨f, i, hf, hi, happlies, -⟩ := Operator.eq_of_point? h
  exact ⟨f, i, hf, hi, happlies⟩

/-- The keys of the points of a unit, in the order in which they are first seen. -/
theorem keysOf_eq (hunit : unit.program.IsValid) (hpoints : ∀ q ∈ points, q.IsOf unit)
    (h : unit.program.KeysOf unit.identifier (PointGroup.ofPoints points) keys) :
    keys = (points.map (·.key)).eraseDups := by
  let keyAt : Nat → String := fun i =>
    unit.program.functions[i]?.elim "" fun f => SymbolName.key f.name unit.identifier
  have hkeyAt : ∀ q ∈ points, keyAt q.address.function = q.key := by
    intro q hq
    obtain ⟨-, f, hf, -⟩ := (hpoints q hq).exists_function
    show unit.program.functions[q.address.function]?.elim _ _ = _
    rw [hf, (hpoints q hq).key_eq hf]
    rfl
  -- each group has the key of its function
  have hgroups : List.Forall₂ (· = ·)
      (((PointGroup.ofPoints points).map (·.function)).map keyAt) keys := by
    rw [List.map_map, List.forall₂_map_left_iff]
    refine h.imp ?_
    rintro g key ⟨f, hf, rfl⟩
    show unit.program.functions[g.function]?.elim _ _ = _
    rw [hf]
    rfl
  rw [List.forall₂_eq_eq_eq] at hgroups
  rw [← hgroups, PointGroup.functions_ofPoints, ← eraseDups_map, List.map_map]
  · exact congrArg List.eraseDups (List.map_congr_left hkeyAt)
  · intro i hi j hj heq
    obtain ⟨q, hq, rfl⟩ := List.mem_map.mp hi
    obtain ⟨k, hk, rfl⟩ := List.mem_map.mp hj
    rw [hkeyAt q hq, hkeyAt k hk] at heq
    by_contra hne
    exact key_ne hunit (hpoints k hk) (hpoints q hq) hne heq

/-- Where all groups of points can be prepared, preparation succeeds
if what comes of it is valid. -/
theorem prepare_snd {program : Program}
    (h : unit.program.prepareGroups unit.identifier [] (PointGroup.ofPoints (unit.own points))
      = ⟨program, .ok keys⟩) :
    (unit.prepare points).2 = match program.validate with
      | .ok () => .ok keys
      | .error fault => .error (.program fault) := by
  rw [own] at h
  rw [prepare, h]
  rfl

theorem prepare_of_prepareGroups {program : Program}
    (h : unit.program.prepareGroups unit.identifier [] (PointGroup.ofPoints (unit.own points))
      = ⟨program, .ok keys⟩) (hvalid : program.validate = .ok ()) :
    unit.prepare points = ({ unit with program }, .ok keys) := by
  rw [own] at h
  rw [prepare, h]
  dsimp only
  rw [hvalid]
  rfl

/-- The module that preparation promises for points of a unit. -/
structure IsExactly (unit : ProgramUnit) (points : List MutationPoint) (unit' : ProgramUnit) :
    Prop where
  /-- All but the functions stays. -/
  others : unit' = { unit with
    program := { unit.program with functions := unit'.program.functions } }
  /-- So does a function that no point is in, at its index. -/
  kept : ∀ (i : Nat) (f : Function), unit.program.functions[i]? = some f →
    (∀ q ∈ points, q.address.function ≠ i) → unit'.program.functions[i]? = some f
  /-- A function that a point is in becomes a stub in its place. -/
  stubbed : ∀ q ∈ points, ∃ f g, unit.program.functions[q.address.function]? = some f ∧
    q.key = SymbolName.key f.name unit.identifier ∧
    unit'.program.functions[q.address.function]? = some g ∧ g.PassesTo f (SymbolName.cell q.key)
  /-- One function is its body, under the preserved name. -/
  preserved : ∀ q ∈ points, ∀ f, unit.program.functions[q.address.function]? = some f →
    unit'.program.functions.filter (·.name == SymbolName.preserved q.key)
      = [{ f with name := SymbolName.preserved q.key }]
  /-- One function for each point is the mutant, under the point's identifier. -/
  mutants : ∀ q ∈ points, ∀ f, unit.program.functions[q.address.function]? = some f →
    ∃ m, q.operator.apply q.address f = .ok m ∧
      unit'.program.functions.filter (·.name == q.identifier) = [{ m with name := q.identifier }]
  /-- Nothing else is added. -/
  added : ((unit'.program.functions.drop unit.program.functions.length).map (·.name)).Perm
    ((points.map (·.key)).eraseDups.map SymbolName.preserved ++ points.map (·.identifier))
  valid : unit'.program.validate = .ok ()

/-- The groups of points of a unit can be prepared. -/
theorem canPrepare_of_isOf (hvalid : unit.program.validate = .ok ())
    (hpoints : ∀ q ∈ points, q.IsOf unit) :
    ∀ g ∈ PointGroup.ofPoints points, unit.program.CanPrepare g := by
  intro g hg
  have hcollects := PointGroup.collects_ofPoints points
  obtain ⟨q, hq, heq⟩ := hcollects.exists_point hg
  obtain ⟨-, f, hf, -⟩ := (hpoints q hq).exists_function
  rw [heq] at hf
  refine ⟨f, hf, ?_, fun k hk => ?_⟩
  · exact ((Program.validate_eq_ok.mp hvalid).2.1 f (List.mem_of_getElem? hf)).numParams_le
  · refine (makes_of_isOf (hpoints k ((hcollects.mem k).mpr ⟨g, hg, hk⟩))).exists_mutant ?_
    rw [hcollects.own g hg k hk, hf]

/-- The names that preparation adds are new, and none is added twice. -/
theorem nodup_names_append {added : List String} (hvalid : unit.program.validate = .ok ())
    (hdistinct : (points.map (·.identifier)).Nodup)
    (hfresh : ∀ q ∈ points, ¬ unit.program.Mentions (SymbolName.preserved q.key) ∧
      ¬ unit.program.Mentions q.identifier)
    (hadded : added.Perm
      ((points.map (·.key)).eraseDups.map SymbolName.preserved ++ points.map (·.identifier))) :
    (unit.program.names ++ added).Nodup ∧ ∀ name ∈ added, ¬ unit.program.Mentions name := by
  have hnew : ∀ name ∈ added, ¬ unit.program.Mentions name := by
    intro name hname
    rcases List.mem_append.mp (hadded.mem_iff.mp hname) with hname | hname
    · obtain ⟨key, hkey, rfl⟩ := List.mem_map.mp hname
      obtain ⟨q, hq, rfl⟩ := List.mem_map.mp (List.mem_eraseDups.mp hkey)
      exact (hfresh q hq).1
    · obtain ⟨q, hq, rfl⟩ := List.mem_map.mp hname
      exact (hfresh q hq).2
  refine ⟨List.nodup_append.mpr ⟨(Program.validate_eq_ok.mp hvalid).1, ?_, ?_⟩, hnew⟩
  · refine hadded.nodup_iff.mpr (List.nodup_append.mpr ⟨?_, hdistinct, ?_⟩)
    · exact (nodup_eraseDups _).map SymbolName.preserved_injective
    -- names of preserved bodies and of mutants differ in form
    · rintro name hname _ hname' rfl
      obtain ⟨key, -, rfl⟩ := List.mem_map.mp hname
      obtain ⟨q, -, heq⟩ := List.mem_map.mp hname'
      exact q.identifier_ne_preserved key heq
  · rintro name hname _ hname' rfl
    obtain ⟨f, hf, rfl⟩ := List.mem_map.mp hname
    exact hnew f.name hname' (.inl ⟨f, hf, rfl⟩)

/-- A unit with a valid program is prepared to exactly what preparation promises, for all points
that are of other modules or that operators make in it, if no two of its own have one identifier and
no function that the program defines or calls has a name that is added. -/
theorem prepare_exactly (hvalid : unit.program.validate = .ok ())
    (hpoints : ∀ q ∈ points, q.moduleId ≠ unit.identifier ∨ q.IsOf unit)
    (hdistinct : ((unit.own points).map (·.identifier)).Nodup)
    (hfresh : ∀ q ∈ unit.own points, ¬ unit.program.Mentions (SymbolName.preserved q.key) ∧
      ¬ unit.program.Mentions q.identifier) :
    ∃ unit', unit.prepare points = (unit', .ok ((unit.own points).map (·.key)).eraseDups) ∧
      unit.IsExactly (unit.own points) unit' := by
  have hown : ∀ q ∈ unit.own points, q.IsOf unit := fun q hq =>
    (hpoints q (mem_own.mp hq).1).resolve_left fun hne => hne (mem_own.mp hq).2
  have hlt : ∀ q ∈ unit.own points, q.address.function < unit.program.functions.length := by
    intro q hq
    obtain ⟨-, f, hf, -⟩ := (hown q hq).exists_function
    exact (List.getElem?_eq_some_iff.mp hf).1
  obtain ⟨program, keys, hgroups⟩ : ∃ program keys, unit.program.prepareGroups unit.identifier []
      (PointGroup.ofPoints (unit.own points)) = ⟨program, .ok keys⟩ :=
    Program.exists_prepareGroups .nil (PointGroup.collects_ofPoints (unit.own points)).nodup
      (canPrepare_of_isOf hvalid hown) []
  obtain ⟨hprepared, hkeys⟩ := Program.isPrepared_of_prepareGroups hlt hgroups
  obtain rfl := keysOf_eq (Program.isValid_of_validate hvalid) hown hkeys
  obtain ⟨-, added, hnames, hadded⟩ := Program.names_prepareGroups_ofPoints hgroups
  obtain ⟨hnodup, hnew⟩ := nodup_names_append hvalid hdistinct hfresh hadded
  rw [← hnames] at hnodup
  have hresult := hprepared.validate hvalid (fun q hq => makes_of_isOf (hown q hq)) hnames hnodup
    fun i hi name hname hmem => hnew name hmem (.inr ⟨i, hi, hname⟩)
  have hfilter : ∀ {j : Nat} {x : Function}, program.functions[j]? = some x →
      program.functions.filter (·.name == x.name) = [x] :=
    fun hx => Program.filter_name_eq hnodup (List.mem_of_getElem? hx)
  refine ⟨_, prepare_of_prepareGroups hgroups hresult, ?_, hprepared.kept, fun q hq => ?_,
    fun q hq f hf => ?_, fun q hq f hf => ?_, ?_, hresult⟩
  · exact congrArg (fun program => ({ unit with program } : ProgramUnit)) hprepared.others
  · obtain ⟨f, hf, hparams, hstub, -⟩ := hprepared.stubbed q hq
    have hkey := (hown q hq).key_eq hf
    exact ⟨f, _, hf, hkey, hstub, hkey ▸ Function.stub_passesTo hparams⟩
  · obtain ⟨f', hf', -, -, ⟨j, -, hj⟩, -⟩ := hprepared.stubbed q hq
    obtain rfl := Option.some.inj (hf.symm.trans hf')
    rw [(hown q hq).key_eq hf]
    exact hfilter hj
  · obtain ⟨f', hf', -, -, -, m, hm, j, -, hj⟩ := hprepared.stubbed q hq
    obtain rfl := Option.some.inj (hf.symm.trans hf')
    obtain ⟨g, hg, rfl⟩ := Program.mutant_eq_ok.mp hm
    exact ⟨g, hg, hfilter hj⟩
  · have hsplit := hprepared.names_eq
    rw [← Program.names, hnames] at hsplit
    exact (List.append_cancel_left hsplit) ▸ hadded

end ProgramUnit

/-! ### Points of two functions -/

/-- A program that counts what it does: one function logs and adds one, and another one, which runs
before every test, logs only. -/
def counting : Program where
  functions := [{
    name := "next", numParams := 1, numLocals := 0, returnType := .int
    blocks := [⟨[⟨.call, none, [.symbol "log", .register 0], none⟩,
      ⟨.add, some 0, [.register 0, .immediate (.int 1)], none⟩,
      ⟨.ret, none, [.register 0], none⟩]⟩] }, {
    name := "start", numParams := 0, numLocals := 0, returnType := .void
    blocks := [⟨[⟨.call, none, [.symbol "log", .immediate (.int 0)], none⟩,
      ⟨.ret, none, [], none⟩]⟩] }]
  declarations := [⟨"log", 1, .void⟩]
  constructors := ["start"]
  version := 1

def countingUnit : ProgramUnit := ⟨counting, .source, "count.json", "m"⟩

/-- Points of both functions, one after the other, and one of another module. -/
def countingPoints : List MutationPoint :=
  ([(.removeVoidFunction, ⟨0, 0, 0⟩), (.removeVoidFunction, ⟨1, 0, 0⟩),
    (.mathAdd, ⟨0, 0, 1⟩)].filterMap fun (o, a) => Operator.point? o countingUnit a)
    ++ [⟨"n", "check", ⟨0, 0, 0⟩, .mathAdd, "", none, [("t", 0)]⟩]

theorem counting_exactly :
    ∃ unit', countingUnit.prepare countingPoints = (unit', .ok ["next_m", "start_m"]) ∧
      countingUnit.IsExactly (countingUnit.own countingPoints) unit' := by
  have hkeys : ((countingUnit.own countingPoints).map (·.key)).eraseDups
      = ["next_m", "start_m"] := by
    decide
  rw [← hkeys]
  exact ProgramUnit.prepare_exactly (by decide) (by decide) (by decide) (by decide)

/-- Functions that are only declared count too: a call under a name that is added would go to the
added function, which need not take what the call gives. -/
example : (ProgramUnit.prepare ⟨{ counting with
      functions := counting.functions.map fun f => { f with blocks := f.blocks.map fun b =>
        ⟨⟨.call, none, [.symbol "next_m_original"], none⟩ :: b.instructions⟩ }
      declarations := ⟨"next_m_original", 0, .void⟩ :: counting.declarations }, .source,
      "count.json", "m"⟩
    [⟨"m", "next", ⟨0, 0, 2⟩, .mathAdd, "", none, []⟩]).2
    = .error (.program (.instruction "start" 0 0 (.argumentCount "next_m_original" 1 0))) := by
  decide

end MutationAnalysis
